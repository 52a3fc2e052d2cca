import LinuxDemo.Lib.CString
import LinuxDemo.Lib.Memory

/-!
# Events of inotify

`io/inotify/main.c`: the kernel fills a buffer with records of different lengths, one behind the
other, and `main` walks over them.

**The records.** A header of four words (`wd`, `mask`, `cookie`, `len`), then `len` bytes with the
name, which ends with a zero and is padded with zeros to a multiple of 16. Without a name `len`
is 0.

**The code.** Every access is logged (`Access`), so that a theorem can say which part of the buffer
is read. An access outside the buffer fails.

* `eventLoop_displays`: the inner loop decodes what the kernel encoded.
* `mainLoop_prints`: and so does the outer loop, read after read, over a buffer that is never
  cleared.
-/

namespace LinuxDemo.Inotify

/-! ## The kernel's side -/

def NAME_MAX : ℕ := 255

/-- `sizeof(struct inotify_event)`. -/
def headerSize : ℕ := 16

def BUFFER_LENGTH : ℕ := 10 * (headerSize + NAME_MAX + 1)

/-- An event to be reported. -/
structure Record where
  wd : BitVec 32
  mask : BitVec 32
  cookie : BitVec 32
  name : Option CString
  short : ∀ s ∈ name, s.bytes.length ≤ NAME_MAX

namespace Record

/-- The length of the name field: with its terminator, rounded up to a multiple of 16. -/
def len (r : Record) : ℕ :=
  match r.name with
  | none => 0
  | some s => (s.bytes.length + 1 + 15) / 16 * 16

/-- The name field. -/
def nameField (r : Record) : List Byte :=
  match r.name with
  | none => []
  | some s => s.bytes ++ List.replicate (r.len - s.bytes.length) 0

/-- The record as the kernel writes it. -/
def encode (r : Record) : List Byte :=
  wordBytes r.wd ++ wordBytes r.mask ++ wordBytes r.cookie ++ wordBytes (BitVec.ofNat 32 r.len) ++
    r.nameField

end Record

/-- The records of one `read`, back to back. -/
def encodeAll (records : List Record) : List Byte := records.flatMap Record.encode

/-! ## The code -/

/-- What `displayEvent` finds out about an event. -/
structure Event where
  wd : BitVec 32
  cookie : BitVec 32
  mask : BitVec 32
  name : Option (List Byte)
  deriving DecidableEq

/-- A text at the right of a field of the given width. -/
def padLeft (width : ℕ) (text : List Byte) : List Byte :=
  List.replicate (width - text.length) 32 ++ text

def decimal (i : ℤ) : List Byte := literal (toString i).toList

/-- The tests of `displayEvent`, in its order. -/
def maskTexts : List (BitVec 32 × String) :=
  [(0x00000001#32, "IN_ACCESS"), (0x00000004#32, "IN_ATTRIB"),
    (0x00000010#32, "IN_CLOSE_NOWRITE"), (0x00000008#32, "IN_CLOSE_WRITE"),
    (0x00000100#32, "IN_CREATE"), (0x00000200#32, "IN_DELETE"),
    (0x00000400#32, "IN_DELETE_SELF"), (0x00008000#32, "IN_IGNORED"),
    (0x40000000#32, "IN_ISDIR"), (0x00000002#32, "IN_MODIFY"),
    (0x00000800#32, "IN_MOVE_SELF"), (0x00000040#32, "IN_MOVED_FROM"),
    (0x00000080#32, "IN_MOVED_TO"), (0x00000020#32, "IN_OPEN"),
    (0x00004000#32, "IN_Q_OVERFLOW"), (0x00002000#32, "IN_UNMOUNT")]

/-- The line printed for an event. -/
def Event.line (e : Event) : List Byte :=
  literal "    wd =".toList ++ padLeft 2 (decimal e.wd.toInt) ++ literal "; ".toList ++
  (if e.cookie > 0#32 then
    literal "cookie =".toList ++ padLeft 4 (decimal e.cookie.toInt) ++ literal "; ".toList
  else []) ++
  literal "mask = ".toList ++
  maskTexts.flatMap (fun (bit, text) =>
    if e.mask &&& bit ≠ 0#32 then padLeft 20 (literal text.toList) else []) ++
  (match e.name with
  | none => []
  | some name => literal " name = ".toList ++ name) ++
  literal "\n".toList

/-- `displayEvent(e)`, where `e` is the offset of the event in the buffer. -/
def displayEvent (mem : List Byte) (e : ℕ) : Access Event := do
  let wd ← loadWord mem e
  let cookie ← loadWord mem (e + 8)
  let mask ← loadWord mem (e + 4)
  let len ← loadWord mem (e + 12)
  let name ← (if len > 0#32 then some <$> loadString mem (e + headerSize) else pure none)
  return ⟨wd, cookie, mask, name⟩

/-- `while (p < buffer + number)`: the events displayed, and `p` behind the loop. -/
def eventLoop (mem : List Byte) (number p : ℕ) : Access (List Event × ℕ) :=
  if p < number then do
    let event ← displayEvent mem p
    let len ← loadWord mem (p + 12)
    let (events, q) ← eventLoop mem number (p + (headerSize + len.toNat))
    return (event :: events, q)
  else
    pure ([], p)
termination_by number - p
decreasing_by
  unfold headerSize
  omega

/-- `while (true)`: what is printed for the given results of `read`, `none` for -1. The buffer
keeps behind the new bytes what earlier reads left there. -/
def mainLoop : List Byte → List (Option (List Byte)) → Access (List Byte)
  | _, [] => pure []
  | _, none :: _ => pure (literal "read inotify fd return -1\n".toList)
  | buffer, some w :: reads =>
    if w.length = 0 then do
      let rest ← mainLoop buffer reads
      return literal "read inotify fd return 0\n".toList ++ rest
    else do
      let (events, _) ← eventLoop (overlay w buffer) w.length 0
      let rest ← mainLoop (overlay w buffer) reads
      return literal "read ".toList ++ decimal w.length ++
        literal " bytes from inotify fd\n".toList ++ events.flatMap Event.line ++ rest

/-! ## Records in memory -/

namespace Record

/-- What is to be displayed of a record. -/
def event (r : Record) : Event := ⟨r.wd, r.cookie, r.mask, r.name.map CString.bytes⟩

theorem len_lt (r : Record) : r.len < 2 ^ 32 := by
  unfold len
  cases hname : r.name with
  | none => simp
  | some s =>
    have hshort : s.bytes.length ≤ 255 := r.short s hname
    dsimp only
    omega

@[simp] theorem toNat_len (r : Record) : (BitVec.ofNat 32 r.len).toNat = r.len := by
  rw [BitVec.toNat_ofNat, Nat.mod_eq_of_lt r.len_lt]

@[simp] theorem len_eq_zero {r : Record} : r.len = 0 ↔ r.name = none := by
  unfold len
  cases r.name with
  | none => simp
  | some s => simp

/-- The name field holds the name and a terminator. -/
theorem nameField_eq {r : Record} {s : CString} (h : r.name = some s) :
    ∃ k, r.nameField = s.bytes ++ 0 :: List.replicate k 0 ∧ r.len = s.bytes.length + 1 + k := by
  have hlen : r.len = (s.bytes.length + 1 + 15) / 16 * 16 := by simp [len, h]
  refine ⟨r.len - (s.bytes.length + 1), ?_, by omega⟩
  have hsucc : r.len - s.bytes.length = r.len - (s.bytes.length + 1) + 1 := by omega
  unfold nameField
  rw [h]
  dsimp only
  rw [hsucc, List.replicate_succ]

@[simp] theorem length_nameField (r : Record) : r.nameField.length = r.len := by
  cases hname : r.name with
  | none => simp [nameField, len, hname]
  | some s =>
    obtain ⟨k, hfield, hlen⟩ := nameField_eq hname
    rw [hfield, hlen]
    simp
    omega

@[simp] theorem length_encode (r : Record) : r.encode.length = headerSize + r.len := by
  simp [encode, headerSize, ← add_assoc]

end Record

/-- Where the parts of a record are. -/
theorem drop_fields {mem rest : List Byte} {p : ℕ} {r : Record}
    (hmem : mem.drop p = r.encode ++ rest) :
    (∃ l, mem.drop p = wordBytes r.wd ++ l) ∧ (∃ l, mem.drop (p + 4) = wordBytes r.mask ++ l) ∧
    (∃ l, mem.drop (p + 8) = wordBytes r.cookie ++ l) ∧
    (∃ l, mem.drop (p + 12) = wordBytes (BitVec.ofNat 32 r.len) ++ l) ∧
    mem.drop (p + headerSize) = r.nameField ++ rest := by
  unfold Record.encode at hmem
  simp only [List.append_assoc] at hmem
  have hmask := drop_add_length hmem
  have hcookie := drop_add_length hmask
  have hlen := drop_add_length hcookie
  have hname := drop_add_length hlen
  exact ⟨⟨_, hmem⟩, ⟨_, hmask⟩, ⟨_, hcookie⟩, ⟨_, hlen⟩, hname⟩

theorem drop_encode {mem rest : List Byte} {p : ℕ} {r : Record}
    (hmem : mem.drop p = r.encode ++ rest) : mem.drop (p + (headerSize + r.len)) = rest := by
  rw [← r.length_encode]
  exact drop_add_length hmem

/-! ## The inner loop -/

theorem yields_displayEvent {mem rest : List Byte} {p : ℕ} {r : Record}
    (hmem : mem.drop p = r.encode ++ rest) :
    Yields (displayEvent mem p) r.event (Set.Ico p (p + (headerSize + r.len))) := by
  obtain ⟨⟨_, hwd⟩, ⟨_, hmask⟩, ⟨_, hcookie⟩, ⟨_, hlen⟩, hname⟩ := drop_fields hmem
  have hheader : ∀ k ≤ 12, Set.Ico (p + k) (p + k + 4) ⊆ Set.Ico p (p + (headerSize + r.len)) := by
    intro k hk
    apply Set.Ico_subset_Ico
    · omega
    · unfold headerSize
      omega
  unfold displayEvent
  refine (yields_loadWord hwd (hheader 0 (by omega))).bind ?_
  refine (yields_loadWord hcookie (hheader 8 (by omega))).bind ?_
  refine (yields_loadWord hmask (hheader 4 (by omega))).bind ?_
  refine (yields_loadWord hlen (hheader 12 (by omega))).bind ?_
  refine Yields.bind (a := r.name.map CString.bytes) ?_ (yields_pure _ _)
  cases hr : r.name with
  | none =>
    have hzero : r.len = 0 := Record.len_eq_zero.2 hr
    rw [hzero, if_neg (by simp)]
    exact yields_pure none _
  | some s =>
    obtain ⟨k, hfield, hle⟩ := Record.nameField_eq hr
    have hpos : BitVec.ofNat 32 r.len > 0#32 := by
      rw [gt_iff_lt, BitVec.lt_def, Record.toNat_len]
      simp only [BitVec.toNat_ofNat]
      omega
    rw [hfield, List.append_assoc] at hname
    rw [if_pos hpos]
    refine (yields_loadString s.nonzero hname ?_).map some
    apply Set.Ico_subset_Ico <;> omega

/-- From a record on, the loop displays the records that are left and ends behind them. -/
theorem yields_eventLoop (records : List Record) {mem rest : List Byte} {number p : ℕ}
    (hmem : mem.drop p = encodeAll records ++ rest)
    (hnumber : number = p + (encodeAll records).length) :
    Yields (eventLoop mem number p) (records.map Record.event, number) (Set.Iio number) := by
  induction records generalizing p with
  | nil =>
    have hp : number = p := hnumber
    rw [eventLoop, if_neg (by omega), hp]
    exact yields_pure _ _
  | cons r records ih =>
    have hsplit : encodeAll (r :: records) = r.encode ++ encodeAll records := List.flatMap_cons
    rw [hsplit, List.append_assoc] at hmem
    rw [hsplit, List.length_append, r.length_encode] at hnumber
    have hlt : p < number := by
      unfold headerSize at hnumber
      omega
    have hrecord : Set.Ico p (p + (headerSize + r.len)) ⊆ Set.Iio number := by
      intro i hi
      rw [Set.mem_Ico] at hi
      rw [Set.mem_Iio]
      omega
    obtain ⟨-, -, -, ⟨_, hlen⟩, -⟩ := drop_fields hmem
    have hword : Set.Ico (p + 12) (p + 12 + 4) ⊆ Set.Ico p (p + (headerSize + r.len)) := by
      unfold headerSize
      apply Set.Ico_subset_Ico <;> omega
    have hrest := ih (drop_encode hmem) (by omega)
    rw [eventLoop, if_pos hlt]
    refine ((yields_displayEvent hmem).mono hrecord).bind ?_
    refine (yields_loadWord hlen (hword.trans hrecord)).bind ?_
    rw [Record.toNat_len]
    exact hrest.bind (yields_pure _ _)

/-- `read` fills the buffer with records. The inner loop displays each of them once and in order,
reads nothing behind them, and ends with `p` behind the last one. -/
theorem eventLoop_displays (records : List Record) (old : List Byte)
    (hold : old.length = BUFFER_LENGTH) (hsize : (encodeAll records).length ≤ BUFFER_LENGTH) :
    let buffer := overlay (encodeAll records) old
    let number := (encodeAll records).length
    buffer.length = BUFFER_LENGTH ∧
    ∃ reads, (eventLoop buffer number 0).run [] =
        some ((records.map Record.event, number), reads) ∧
      ∀ i ∈ reads, i < number := by
  intro buffer number
  refine ⟨(length_overlay (hsize.trans hold.ge)).trans hold, ?_⟩
  have hmem : buffer.drop 0 = encodeAll records ++ old.drop number := rfl
  exact yields_eventLoop records hmem (Nat.zero_add _).symm []

/-- A file is opened, and a file `ab` is created in a watched directory. -/
def openCreate : List Record :=
  [⟨1#32, 0x20#32, 0#32, none, by simp⟩,
    ⟨2#32, 0x100#32, 0#32, some ⟨[97, 98], by decide⟩, by simp [NAME_MAX]⟩]

theorem eventLoop_displays_openCreate :
    ∃ reads, (eventLoop (overlay (encodeAll openCreate) (List.replicate BUFFER_LENGTH 0)) 48 0).run
        [] = some (([⟨1#32, 0#32, 0x20#32, none⟩, ⟨2#32, 0#32, 0x100#32, some [97, 98]⟩], 48),
          reads) ∧
      ∀ i ∈ reads, i < 48 :=
  (eventLoop_displays openCreate (List.replicate BUFFER_LENGTH 0) List.length_replicate
    (by decide)).2

/-! ## The outer loop -/

/-- What is to be printed for one `read`. -/
def report (records : List Record) : List Byte :=
  if records = [] then literal "read inotify fd return 0\n".toList
  else literal "read ".toList ++ decimal (encodeAll records).length ++
    literal " bytes from inotify fd\n".toList ++ (records.map Record.event).flatMap Event.line

theorem length_encodeAll_eq_zero {records : List Record} :
    (encodeAll records).length = 0 ↔ records = [] := by
  cases records with
  | nil => simp [encodeAll]
  | cons r records => simp [encodeAll, headerSize]

/-- Read after read, the buffer is decoded without a trace of what earlier reads left in it. -/
theorem mainLoop_prints (batches : List (List Record)) (buffer : List Byte)
    (hbuffer : buffer.length = BUFFER_LENGTH)
    (hsize : ∀ records ∈ batches, (encodeAll records).length ≤ BUFFER_LENGTH) :
    Yields (mainLoop buffer (batches.map fun records => some (encodeAll records)))
      (batches.flatMap report) (Set.Iio BUFFER_LENGTH) := by
  induction batches generalizing buffer with
  | nil => exact yields_pure _ _
  | cons records batches ih =>
    have hfits : (encodeAll records).length ≤ BUFFER_LENGTH := hsize records (by simp)
    have hothers : ∀ l ∈ batches, (encodeAll l).length ≤ BUFFER_LENGTH :=
      fun l hl => hsize l (List.mem_cons_of_mem _ hl)
    rw [List.map_cons, mainLoop, List.flatMap_cons, report]
    by_cases hnil : records = []
    · rw [if_pos (length_encodeAll_eq_zero.2 hnil), if_pos hnil]
      exact (ih buffer hbuffer hothers).bind (yields_pure _ _)
    · rw [if_neg (mt length_encodeAll_eq_zero.1 hnil), if_neg hnil]
      have hmem : (overlay (encodeAll records) buffer).drop 0 =
          encodeAll records ++ buffer.drop (encodeAll records).length := rfl
      have hevents := yields_eventLoop records hmem (Nat.zero_add _).symm
      have hlen : (overlay (encodeAll records) buffer).length = BUFFER_LENGTH :=
        (length_overlay (hfits.trans hbuffer.ge)).trans hbuffer
      refine (hevents.mono (Set.Iio_subset_Iio hfits)).bind ?_
      exact (ih _ hlen hothers).bind (yields_pure _ _)

end LinuxDemo.Inotify
