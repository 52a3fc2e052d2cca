import LinuxDemo.Lib.Fifo
import LinuxDemo.Lib.CString
import LinuxDemo.Lib.Threads

/-!
# The reader and the writer of `io/fifo`

Any number of processes run `reader.c` or `writer.c` on `/tmp/fifo_test`. All of them make the FIFO
if they do not find it. A reader prints what it reads, byte by byte, until it has read an `x`. A writer
writes `abcdefghx` with one `write`, which is atomic.

**Messages.** Whoever reads them, the bytes come out of the FIFO as whole messages, one after the
other. A reader that ends has just read the end of a message, or there was nothing to read. So also the
data that is lost when the last process closes the FIFO is whole messages.

* `messages_whole`: the bytes that were read are a prefix of `abcdefghx`, again and again.
* `only_reader`: the only reader prints a prefix of `abcdefghx`, never sees the end of the file, and
  ends when it has printed all of it.
-/

namespace LinuxDemo.FifoTest

open Lts Threads

variable {ι : Type*}

/-- `"abcdefghx"`, without its last letter. -/
def body : List Byte := literal ['a', 'b', 'c', 'd', 'e', 'f', 'g', 'h']

def x : Byte := 'x'.toUInt8

/-- What a writer writes. -/
def message : List Byte := body ++ [x]

/-- The program that a process runs. -/
inductive Role where
  | reader
  | writer
  deriving DecidableEq

/-- What a process executes next. -/
inductive Pc where
  /-- `access(FIFO_NAME, F_OK)`. -/
  | access
  | mkfifo
  | openFifo
  /-- `open` of a reader waits for a writer. Writers have opened the FIFO `seen` times before. -/
  | waitWriter (seen : ℕ)
  /-- `open` of a writer waits for a reader. -/
  | waitReader (seen : ℕ)
  /-- `read`, in the loop of the reader, which has printed these bytes. -/
  | read (printed : List Byte)
  /-- The loop has ended; `eof` says that it was by the end of the file. -/
  | done (printed : List Byte) (eof : Bool)
  /-- `write`, in the writer. -/
  | write
  | wrote
  /-- The process has ended, and its descriptor is closed. -/
  | ended (printed : List Byte)
  /-- `mkfifo` or `open` has failed. -/
  | failed
  deriving DecidableEq

/-- What a process does in one step. -/
inductive Op where
  | access
  /-- `mkfifo`, which fails if the FIFO exists. -/
  | mkfifo
  | mkfifoFails
  | openFifo
  | openFails
  | peerOpens
  | read
  /-- `read` returns 0. -/
  | eof
  /-- `write`, or the signal `SIGPIPE` if nobody has the FIFO open for reading. -/
  | write
  | exit
  deriving DecidableEq

/-- The file, and the bytes that were read so far, by any reader. -/
structure Shared where
  made : Bool
  fifo : Fifo Byte
  got : List Byte

def initial : Shared := ⟨false, .unused, []⟩

/-- A process that runs the program `r` executes one step. -/
def step (capacity : ℕ) (r : Role) : Op → Shared → Pc → Option (Shared × Pc)
  | .access, s, .access => some (s, if s.made then .openFifo else .mkfifo)
  | .mkfifo, s, .mkfifo => some ({ s with made := true }, if s.made then .failed else .openFifo)
  | .mkfifoFails, s, .mkfifo => some (s, .failed)
  | .openFails, s, .openFifo => some (s, .failed)
  | .openFifo, s, .openFifo =>
    match r with
    | .reader =>
      some ({ s with fifo := s.fifo.openRead },
        if s.fifo.writers = 0 then .waitWriter s.fifo.writerOpens else .read [])
    | .writer =>
      some ({ s with fifo := s.fifo.openWrite },
        if s.fifo.readers = 0 then .waitReader s.fifo.readerOpens else .write)
  | .peerOpens, s, .waitWriter seen =>
    if s.fifo.writerOpens = seen then none else some (s, .read [])
  | .peerOpens, s, .waitReader seen =>
    if s.fifo.readerOpens = seen then none else some (s, .write)
  | .read, s, .read printed =>
    match s.fifo.data with
    | [] => none
    | ch :: data =>
      some ({ s with fifo := { s.fifo with data := data }, got := s.got ++ [ch] },
        if ch = x then .done (printed ++ [ch]) false else .read (printed ++ [ch]))
  | .eof, s, .read printed =>
    if s.fifo.data = [] ∧ s.fifo.writers = 0 then some (s, .done printed true) else none
  | .write, s, .write =>
    if s.fifo.readers = 0 then some ({ s with fifo := s.fifo.closeWrite }, .ended [])
    else (s.fifo.write capacity message).map fun f => ({ s with fifo := f }, .wrote)
  | .exit, s, .done printed _ => some ({ s with fifo := s.fifo.closeRead }, .ended printed)
  | .exit, s, .wrote => some ({ s with fifo := s.fifo.closeWrite }, .ended [])
  | _, _, _ => none

/-- All processes, started at any time. -/
def system [DecidableEq ι] (capacity : ℕ) (role : ι → Role) : Lts (Threads ι Shared Pc) (ι × Op) :=
  interleave initial (fun _ => .access) fun p => step capacity (role p)

/-! ## What one step does -/

/-- The steps that leave the FIFO alone. -/
inductive Move (s : Shared) : Op → Pc → Shared → Pc → Prop
  | access {y : Pc} (hy : y = .openFifo ∨ y = .mkfifo) : Move s .access .access s y
  | mkfifo {y : Pc} (hy : y = .failed ∨ y = .openFifo) :
      Move s .mkfifo .mkfifo { s with made := true } y
  | mkfifoFails : Move s .mkfifoFails .mkfifo s .failed
  | openFails : Move s .openFails .openFifo s .failed
  | writerOpened {seen : ℕ} (h : s.fifo.writerOpens ≠ seen) :
      Move s .peerOpens (.waitWriter seen) s (.read [])
  | readerOpened {seen : ℕ} : Move s .peerOpens (.waitReader seen) s .write

/-- Everything a step can do. -/
inductive Step (r : Role) (s : Shared) : Op → Pc → Shared → Pc → Prop
  | move {op : Op} {z y : Pc} {s' : Shared} (h : Move s op z s' y) : Step r s op z s' y
  | openRead {y : Pc} (hr : r = .reader)
      (hy : y = .waitWriter s.fifo.writerOpens ∨ 0 < s.fifo.writers ∧ y = .read []) :
      Step r s .openFifo .openFifo { s with fifo := s.fifo.openRead } y
  | openWrite {y : Pc} (hr : r = .writer) (hy : y = .waitReader s.fifo.readerOpens ∨ y = .write) :
      Step r s .openFifo .openFifo { s with fifo := s.fifo.openWrite } y
  | read {printed data : List Byte} {ch : Byte} (hdata : s.fifo.data = ch :: data) :
      Step r s .read (.read printed)
        { s with fifo := { s.fifo with data := data }, got := s.got ++ [ch] }
        (if ch = x then .done (printed ++ [ch]) false else .read (printed ++ [ch]))
  | eof {printed : List Byte} (hdata : s.fifo.data = []) (hw : s.fifo.writers = 0) :
      Step r s .eof (.read printed) s (.done printed true)
  | write (hr : 0 < s.fifo.readers) :
      Step r s .write .write { s with fifo := { s.fifo with data := s.fifo.data ++ message } } .wrote
  | sigpipe (hr : s.fifo.readers = 0) :
      Step r s .write .write { s with fifo := s.fifo.closeWrite } (.ended [])
  | exitReader {printed : List Byte} {eof : Bool} :
      Step r s .exit (.done printed eof) { s with fifo := s.fifo.closeRead } (.ended printed)
  | exitWriter : Step r s .exit .wrote { s with fifo := s.fifo.closeWrite } (.ended [])

theorem step_cases {capacity : ℕ} {r : Role} {op : Op} {s s' : Shared} {z y : Pc}
    (h : step capacity r op s z = some (s', y)) : Step r s op z s' y := by
  unfold step at h
  split at h
  · cases h
    refine .move (.access ?_)
    split_ifs <;> simp
  · cases h
    refine .move (.mkfifo ?_)
    split_ifs <;> simp
  · cases h
    exact .move .mkfifoFails
  · cases h
    exact .move .openFails
  · split at h <;> cases h
    · refine .openRead rfl ?_
      split_ifs with hw
      · exact Or.inl rfl
      · exact Or.inr ⟨Nat.pos_of_ne_zero hw, rfl⟩
    · refine .openWrite rfl ?_
      split_ifs <;> simp
  · split_ifs at h with hseen
    cases h
    exact .move (.writerOpened hseen)
  · split_ifs at h
    cases h
    exact .move .readerOpened
  · split at h <;> cases h
    exact .read ‹_›
  · split_ifs at h with heof
    cases h
    exact .eof heof.1 heof.2
  · split_ifs at h with hr
    · cases h
      exact .sigpipe hr
    · obtain ⟨f, hf, he⟩ := Option.map_eq_some_iff.1 h
      cases he
      unfold Fifo.write at hf
      split_ifs at hf
      cases hf
      exact .write (Nat.pos_of_ne_zero hr)
  · cases h
    exact .exitReader
  · cases h
    exact .exitWriter
  · cases h

/-! ## Who has the FIFO open -/

namespace Pc

/-- The descriptors of a process for reading. -/
def readers : Pc → ℕ
  | waitWriter _ | read _ | done _ _ => 1
  | _ => 0

/-- The descriptors of a process for writing. -/
def writers : Pc → ℕ
  | waitReader _ | write | wrote => 1
  | _ => 0

/-- The process is in the loop of the reader. -/
def reading : Pc → Bool
  | read _ => true
  | _ => false

/-- The process has the FIFO open for writing, and is still to write. -/
def writing : Pc → Bool
  | waitReader _ | write => true
  | _ => false

theorem readers_of_reading {z : Pc} (h : z.reading = true) : z.readers = 1 := by
  cases z with
  | read => rfl
  | _ => cases h

end Pc

/-- The kernel counts the processes that have the FIFO open. What was read and what is still there are
whole messages, and what was read too, or a reader goes on. -/
structure Inv [Fintype ι] (w : Threads ι Shared Pc) : Prop where
  readers : w.shared.fifo.readers = ∑ p, (w.pc p).readers
  writers : w.shared.fifo.writers = ∑ p, (w.pc p).writers
  stream : Messages message (w.shared.got ++ w.shared.fifo.data)
  ended : Messages message w.shared.got ∨ ∃ p, (w.pc p).reading = true

theorem x_not_mem_body : x ∉ body := by decide

section Runs

variable [DecidableEq ι] [Fintype ι] {capacity : ℕ} {role : ι → Role} {s s' : Shared}
  {pc : ι → Pc} {p : ι} {op : Op} {y : Pc}

omit [DecidableEq ι] in
/-- A process has the FIFO open, so the kernel counts one. -/
theorem pos_of_open {f : Pc → ℕ} {n : ℕ} (h : n = ∑ q, f (pc q)) (hp : f (pc p) = 1) : 0 < n := by
  have hle : f (pc p) ≤ ∑ q, f (pc q) :=
    Finset.single_le_sum (f := fun q => f (pc q)) (fun _ _ => Nat.zero_le _) (Finset.mem_univ p)
  omega

omit [DecidableEq ι] in
/-- The data that is lost when nobody has the FIFO open is whole messages. -/
theorem Inv.release {w : Threads ι Shared Pc} (h : Inv w) :
    Inv ⟨{ w.shared with fifo := w.shared.fifo.release }, w.pc⟩ where
  readers := by rw [Fifo.release_readers, h.readers]
  writers := by rw [Fifo.release_writers, h.writers]
  ended := h.ended
  stream := by
    unfold Fifo.release
    split_ifs with hclosed
    · rw [List.append_nil]
      rcases h.ended with hgot | ⟨p, hp⟩
      · exact hgot
      · have hpos := pos_of_open h.readers (Pc.readers_of_reading hp)
        exact absurd hclosed.1 (Nat.ne_of_gt hpos)
    · exact h.stream

/-- What the kernel counts after a step of process `p`. -/
theorem count_update {f : Pc → ℕ} {n n' : ℕ} (h : n = ∑ q, f (pc q))
    (hn : n' + f (pc p) = n + f y) : n' = ∑ q, f (Function.update pc p y q) := by
  have hsum := sum_update f pc p y
  omega

/-- A step of process `p` that reads nothing. -/
theorem Inv.update (h : Inv ⟨s, pc⟩) (hgot : s'.got = s.got)
    (hreaders : s'.fifo.readers + (pc p).readers = s.fifo.readers + y.readers)
    (hwriters : s'.fifo.writers + (pc p).writers = s.fifo.writers + y.writers)
    (hdata : s'.fifo.data = s.fifo.data ∨ s'.fifo.data = s.fifo.data ++ message)
    (hy : (pc p).reading = true → y.reading = true ∨ s.fifo.data = []) :
    Inv ⟨s', Function.update pc p y⟩ where
  readers := count_update h.readers hreaders
  writers := count_update h.writers hwriters
  stream := by
    have hstream : Messages message (s.got ++ s.fifo.data) := h.stream
    show Messages message (s'.got ++ s'.fifo.data)
    rw [hgot]
    rcases hdata with hd | hd
    · rw [hd]
      exact hstream
    · rw [hd, ← List.append_assoc]
      exact hstream.append_self
  ended := by
    show Messages message s'.got ∨ _
    rw [hgot]
    rcases h.ended with hmsgs | ⟨q, hq⟩
    · exact Or.inl hmsgs
    · by_cases hqp : q = p
      · subst hqp
        rcases hy hq with hread | hnil
        · exact Or.inr ⟨q, (congrArg Pc.reading (Function.update_self ..)).trans hread⟩
        · -- Nothing is left, so the stream has ended.
          have hstream : Messages message (s.got ++ s.fifo.data) := h.stream
          rw [hnil, List.append_nil] at hstream
          exact Or.inl hstream
      · exact Or.inr ⟨q, (congrArg Pc.reading (Function.update_of_ne hqp ..)).trans hq⟩

theorem inv_step (h : Inv ⟨s, pc⟩) (hs : Step (role p) s op (pc p) s' y) :
    Inv ⟨s', Function.update pc p y⟩ := by
  generalize hpc : pc p = z at hs
  cases hs with
  | move hm =>
    have hkeeps : s'.fifo = s.fifo ∧ s'.got = s.got ∧ y.readers = z.readers ∧
        y.writers = z.writers ∧ z.reading = false := by
      cases hm with
      | access hy => rcases hy with rfl | rfl <;> exact ⟨rfl, rfl, rfl, rfl, rfl⟩
      | mkfifo hy => rcases hy with rfl | rfl <;> exact ⟨rfl, rfl, rfl, rfl, rfl⟩
      | _ => exact ⟨rfl, rfl, rfl, rfl, rfl⟩
    obtain ⟨hfifo, hgot, hr, hw, hread⟩ := hkeeps
    refine h.update hgot ?_ ?_ (Or.inl (by rw [hfifo])) ?_
    · rw [hfifo, hpc, hr]
    · rw [hfifo, hpc, hw]
    · rw [hpc, hread]
      exact Bool.noConfusion
  | openRead _ hy =>
    refine h.update rfl ?_ ?_ (Or.inl rfl) (by rw [hpc]; exact Bool.noConfusion) <;>
      rcases hy with rfl | ⟨-, rfl⟩ <;> rw [hpc] <;> rfl
  | openWrite _ hy =>
    refine h.update rfl ?_ ?_ (Or.inl rfl) (by rw [hpc]; exact Bool.noConfusion) <;>
      rcases hy with rfl | rfl <;> rw [hpc] <;> rfl
  | @read printed data ch hdata =>
    have hstream : Messages message (s.got ++ s.fifo.data) := h.stream
    rw [hdata] at hstream
    refine ⟨count_update h.readers ?_, count_update h.writers ?_, ?_, ?_⟩
    · rw [hpc]
      split_ifs <;> rfl
    · rw [hpc]
      split_ifs <;> rfl
    · show Messages message (s.got ++ [ch] ++ data)
      rwa [List.append_assoc, List.singleton_append]
    · split_ifs with hx
      · rw [hx] at hstream ⊢
        exact Or.inl (Messages.of_terminator x_not_mem_body hstream)
      · refine Or.inr ⟨p, ?_⟩
        show (Function.update pc p _ p).reading = true
        rw [Function.update_self]
        rfl
  | eof hdata _ =>
    exact h.update rfl (by rw [hpc]; rfl) (by rw [hpc]; rfl) (Or.inl rfl) fun _ => Or.inr hdata
  | write =>
    exact h.update rfl (by rw [hpc]; rfl) (by rw [hpc]; rfl) (Or.inr rfl)
      (by rw [hpc]; exact Bool.noConfusion)
  | sigpipe | exitWriter =>
    have hpos := pos_of_open (f := Pc.writers) (p := p) h.writers
      (show (pc p).writers = 1 by rw [hpc]; rfl)
    refine Inv.release (w := ⟨{ s with fifo := { s.fifo with writers := s.fifo.writers - 1 } }, _⟩)
      (h.update rfl ?_ ?_ (Or.inl rfl) (by rw [hpc]; exact Bool.noConfusion))
    · rw [hpc]
      rfl
    · rw [hpc]
      exact Nat.sub_add_cancel hpos
  | exitReader =>
    have hpos := pos_of_open (f := Pc.readers) (p := p) h.readers
      (show (pc p).readers = 1 by rw [hpc]; rfl)
    refine Inv.release (w := ⟨{ s with fifo := { s.fifo with readers := s.fifo.readers - 1 } }, _⟩)
      (h.update rfl ?_ ?_ (Or.inl rfl) (by rw [hpc]; exact Bool.noConfusion))
    · rw [hpc]
      exact Nat.sub_add_cancel hpos
    · rw [hpc]
      rfl

theorem inv_invariant : (system capacity role).Invariant Inv := by
  apply interleave_invariant
  · exact ⟨by simp [initial, Fifo.unused, Pc.readers], by simp [initial, Fifo.unused, Pc.writers],
      Messages.nil, Or.inl Messages.nil⟩
  · intro p op s pc s' y h hs
    exact inv_step h (step_cases hs)

/-- **Messages stay whole**, in every run, for any number of readers and writers. All bytes that were
read, by whomever, are a prefix of `abcdefghx` again and again, and they are whole messages when no
reader is in its loop. -/
theorem messages_whole {tr : List (ι × Op)} {w : Threads ι Shared Pc}
    (h : (system capacity role).Run tr w) :
    (∃ n, w.shared.got <+: (List.replicate n message).flatten) ∧
      ((∀ p, (w.pc p).reading = false) →
        ∃ n, w.shared.got = (List.replicate n message).flatten) := by
  have hinv := inv_invariant.run h
  obtain ⟨n, hn⟩ := hinv.stream
  refine ⟨⟨n, hn ▸ List.prefix_append _ _⟩, fun hidle => ?_⟩
  rcases hinv.ended with hgot | ⟨p, hp⟩
  · exact hgot
  · rw [hidle p] at hp
    cases hp

/-! ## One reader -/

/-- What holds at a place of the only reader. Before it opens the FIFO, nothing is written. Once a writer
has opened the FIFO too, there is or will be something to read. -/
def ReaderOk (s : Shared) (pc : ι → Pc) : Pc → Prop
  | .access | .mkfifo | .openFifo => s.got = [] ∧ s.fifo.data = [] ∧ ∀ q, pc q ≠ .wrote
  | .waitWriter seen =>
    s.got = [] ∧ (s.fifo.writerOpens = seen ∨ s.fifo.data ≠ [] ∨ ∃ q, (pc q).writing = true)
  | .read printed =>
    s.got = printed ∧ x ∉ printed ∧
      (printed ≠ [] ∨ s.fifo.data ≠ [] ∨ ∃ q, (pc q).writing = true)
  | .done printed eof => printed = message ∧ eof = false
  | .ended printed => printed = message
  | _ => True

/-- The only reader, when somebody else takes a step. -/
structure Kept (s s' : Shared) (pc pc' : ι → Pc) (z : Pc) : Prop where
  got : s'.got = s.got
  closed : z.readers = 0 → s.fifo.data = [] → (∀ q, pc q ≠ .wrote) →
    s'.fifo.data = [] ∧ ∀ q, pc' q ≠ .wrote
  opens : z.readers = 1 →
    s'.fifo.writerOpens = s.fifo.writerOpens ∨ ∃ q, (pc' q).writing = true
  coming : z.readers = 1 → s.fifo.data ≠ [] ∨ (∃ q, (pc q).writing = true) →
    s'.fifo.data ≠ [] ∨ ∃ q, (pc' q).writing = true

omit [DecidableEq ι] [Fintype ι] in
theorem ReaderOk.kept {pc' : ι → Pc} {z : Pc} (h : ReaderOk s pc z) (hk : Kept s s' pc pc' z) :
    ReaderOk s' pc' z := by
  cases z with
  | access | mkfifo | openFifo => exact ⟨hk.got.trans h.1, hk.closed rfl h.2.1 h.2.2⟩
  | waitWriter seen =>
    refine ⟨hk.got.trans h.1, ?_⟩
    rcases h.2 with hseen | hcoming
    · exact (hk.opens rfl).imp (fun ho => ho.trans hseen) Or.inr
    · exact Or.inr (hk.coming rfl hcoming)
  | read printed =>
    obtain ⟨hgot, hx, hcoming⟩ := h
    exact ⟨hk.got.trans hgot, hx, hcoming.imp id (hk.coming rfl)⟩
  | done printed eof => exact h
  | ended printed => exact h
  | _ => trivial

omit [Fintype ι] in
/-- Who is still to write, after a step of process `p`. -/
theorem writing_update (hy : (pc p).writing = true → y.writing = true)
    (h : ∃ q, (pc q).writing = true) : ∃ q, (Function.update pc p y q).writing = true := by
  obtain ⟨q, hq⟩ := h
  refine ⟨q, ?_⟩
  by_cases hqp : q = p
  · subst hqp
    rw [Function.update_self]
    exact hy hq
  · rwa [Function.update_of_ne hqp]

omit [Fintype ι] in
theorem wrote_update (hy : y ≠ .wrote) (h : ∀ q, pc q ≠ .wrote) :
    ∀ q, Function.update pc p y q ≠ .wrote :=
  (Function.forall_update_iff pc fun _ z => z ≠ Pc.wrote).2 ⟨hy, fun q _ => h q⟩

omit [Fintype ι] in
/-- A step of a writer: the reader has the FIFO open, or it does not. -/
theorem kept_writer {z : Pc} (hs : Step .writer s op (pc p) s' y) (hp : (pc p).readers = 0)
    (hclosed : z.readers = 0 → s.fifo.readers = 0)
    (hopen : z.readers = 1 → 0 < s.fifo.readers) :
    Kept s s' pc (Function.update pc p y) z := by
  -- A step that changes neither the data nor who writes.
  have hsame : s'.got = s.got → s'.fifo.data = s.fifo.data →
      s'.fifo.writerOpens = s.fifo.writerOpens → y ≠ .wrote →
      ((pc p).writing = true → y.writing = true) → Kept s s' pc (Function.update pc p y) z := by
    intro hgot hdata hopens hy hwriting
    refine ⟨hgot, fun _ hd hw => ⟨hdata.trans hd, wrote_update hy hw⟩, fun _ => Or.inl hopens, ?_⟩
    rintro - (hd | hw)
    · exact Or.inl (hdata ▸ hd)
    · exact Or.inr (writing_update hwriting hw)
  generalize hpc : pc p = x at hs hp hsame
  cases hs with
  | move hm =>
    cases hm with
    | access hy | mkfifo hy => rcases hy with rfl | rfl <;> exact hsame rfl rfl rfl (by simp) id
    | mkfifoFails | openFails => exact hsame rfl rfl rfl (by simp) id
    | writerOpened => cases hp
    | readerOpened => exact hsame rfl rfl rfl (by simp) fun _ => rfl
  | openRead hr => cases hr
  | openWrite _ hy =>
    have hwriting : y.writing = true := by rcases hy with rfl | rfl <;> rfl
    have hex : ∃ q, (Function.update pc p y q).writing = true :=
      ⟨p, by rw [Function.update_self, hwriting]⟩
    refine ⟨rfl, fun _ hd hw => ⟨hd, wrote_update ?_ hw⟩, fun _ => Or.inr hex,
      fun _ _ => Or.inr hex⟩
    rintro rfl
    cases hwriting
  | read => cases hp
  | eof => cases hp
  | write hr =>
    refine ⟨rfl, fun hz _ _ => ?_, fun _ => Or.inl rfl, fun _ _ => Or.inl ?_⟩
    · exact absurd (hclosed hz) (Nat.ne_of_gt hr)
    · simp [message]
  | sigpipe hr =>
    refine ⟨rfl, fun _ hd hw => ⟨?_, wrote_update (by simp) hw⟩, ?_, ?_⟩
    · unfold Fifo.closeWrite Fifo.release
      split_ifs
      · rfl
      · exact hd
    · exact fun hz => absurd hr (Nat.ne_of_gt (hopen hz))
    · exact fun hz => absurd hr (Nat.ne_of_gt (hopen hz))
  | exitReader => cases hp
  | exitWriter =>
    refine ⟨rfl, fun _ _ hw => absurd hpc (hw p), fun _ => Or.inl ?_, fun hz hcoming => ?_⟩
    · exact Fifo.release_writerOpens _
    · refine hcoming.imp (fun hd => ?_) (writing_update (by rw [hpc]; exact Bool.noConfusion))
      have hkept : s.fifo.closeWrite.data = s.fifo.data := Fifo.release_data (Or.inl (hopen hz))
      exact hkept ▸ hd

omit [DecidableEq ι] in
/-- When nobody has written, whoever has the FIFO open for writing will write. -/
theorem exists_writing {w : Threads ι Shared Pc} (h : Inv w) (hw : 0 < w.shared.fifo.writers)
    (hwrote : ∀ q, w.pc q ≠ .wrote) : ∃ q, (w.pc q).writing = true := by
  obtain ⟨q, -, hq⟩ := Finset.exists_ne_zero_of_sum_ne_zero (h.writers ▸ Nat.ne_of_gt hw)
  refine ⟨q, ?_⟩
  have hne := hwrote q
  cases hpc : w.pc q with
  | waitReader | write => rfl
  | wrote => exact absurd hpc hne
  | _ =>
    rw [hpc] at hq
    exact absurd rfl hq

/-- A step of the only reader. -/
theorem reader_step (h : Inv ⟨s, pc⟩) (hok : ReaderOk s pc (pc p)) (hp : (pc p).writers = 0)
    (hs : Step .reader s op (pc p) s' y) : ReaderOk s' (Function.update pc p y) y := by
  have hstream : Messages message (s.got ++ s.fifo.data) := h.stream
  have hwriting : (∃ q, (pc q).writing = true) →
      ∃ q, (Function.update pc p y q).writing = true := by
    refine writing_update fun hx => ?_
    cases hpc : pc p <;> rw [hpc] at hx hp <;> cases hx <;> cases hp
  generalize hpc : pc p = z at hs hp hok
  cases hs with
  | move hm =>
    cases hm with
    | access hy => rcases hy with rfl | rfl <;> exact ⟨hok.1, hok.2.1, wrote_update (by simp) hok.2.2⟩
    | mkfifo hy =>
      rcases hy with rfl | rfl
      · trivial
      · exact ⟨hok.1, hok.2.1, wrote_update (by simp) hok.2.2⟩
    | mkfifoFails | openFails => trivial
    | writerOpened hne =>
      refine ⟨hok.1, by simp, Or.inr ?_⟩
      rcases hok.2 with hseen | hcoming
      · exact absurd hseen hne
      · exact hcoming.imp id hwriting
    | readerOpened => cases hp
  | openRead _ hy =>
    rcases hy with rfl | ⟨hw, rfl⟩
    · exact ⟨hok.1, Or.inl rfl⟩
    · exact ⟨hok.1, by simp, Or.inr (Or.inr (hwriting (exists_writing h hw hok.2.2)))⟩
  | openWrite hr => cases hr
  | @read printed data ch hdata =>
    obtain ⟨rfl, hx, -⟩ := hok
    split_ifs with hch
    · subst hch
      rw [hdata] at hstream
      refine ⟨?_, rfl⟩
      rw [Messages.eq_body x_not_mem_body hx hstream]
      rfl
    · refine ⟨rfl, ?_, Or.inl (by simp)⟩
      simp [hx, Ne.symm hch]
  | @eof printed hdata hw =>
    -- Somebody was to write, or something was read and is a whole message.
    obtain ⟨rfl, hx, hcoming⟩ := hok
    rw [hdata, List.append_nil] at hstream
    rcases hcoming with hne | hne | ⟨q, hq⟩
    · exact absurd (Messages.eq_nil hx hstream) hne
    · exact absurd hdata hne
    · have hpos : (pc q).writers = 1 := by
        cases hpcq : pc q <;> rw [hpcq] at hq <;> first | rfl | cases hq
      exact absurd hw (Nat.ne_of_gt (pos_of_open h.writers hpos))
  | write => cases hp
  | sigpipe => cases hp
  | exitReader => exact hok.1
  | exitWriter => cases hp

structure OneReader (role : ι → Role) (w : Threads ι Shared Pc) : Prop where
  inv : Inv w
  places : ∀ p, (role p = .reader → (w.pc p).writers = 0) ∧
    (role p = .writer → (w.pc p).readers = 0)
  reader : ∀ p, role p = .reader → ReaderOk w.shared w.pc (w.pc p)

theorem oneReader_step (hone : ∀ p q, role p = .reader → role q = .reader → p = q)
    (h : OneReader role ⟨s, pc⟩) (hs : Step (role p) s op (pc p) s' y) :
    OneReader role ⟨s', Function.update pc p y⟩ := by
  have hplaces : (role p = .reader → y.writers = 0) ∧ (role p = .writer → y.readers = 0) := by
    have hold : (role p = .reader → (pc p).writers = 0) ∧ (role p = .writer → (pc p).readers = 0) :=
      h.places p
    generalize pc p = z at hs hold
    cases hs with
    | move hm =>
      cases hm with
      | access hy | mkfifo hy => rcases hy with rfl | rfl <;> exact hold
      | _ => exact hold
    | openRead hr hy =>
      rw [hr]
      rcases hy with rfl | ⟨-, rfl⟩ <;> exact ⟨fun _ => rfl, Role.noConfusion⟩
    | openWrite hr hy =>
      rw [hr]
      rcases hy with rfl | rfl <;> exact ⟨Role.noConfusion, fun _ => rfl⟩
    | read => split_ifs <;> exact hold
    | eof | write => exact hold
    | sigpipe | exitReader | exitWriter => exact ⟨fun _ => rfl, fun _ => rfl⟩
  refine ⟨inv_step h.inv hs, ?_, ?_⟩
  · exact (Function.forall_update_iff pc fun q z => (role q = .reader → z.writers = 0) ∧
      (role q = .writer → z.readers = 0)).2 ⟨hplaces, fun q _ => h.places q⟩
  · intro q hq
    by_cases hqp : q = p
    · subst hqp
      rw [hq] at hs
      show ReaderOk s' _ (Function.update pc q y q)
      rw [Function.update_self]
      exact reader_step h.inv (h.reader q hq) ((h.places q).1 hq) hs
    · have hp : role p = .writer := by
        cases hr : role p with
        | reader => exact absurd (hone q p hq hr) hqp
        | writer => rfl
      rw [hp] at hs
      show ReaderOk s' _ (Function.update pc p y q)
      rw [Function.update_of_ne hqp]
      refine (h.reader q hq).kept (kept_writer hs ((h.places p).2 hp) ?_ ?_)
      · intro hz
        refine h.inv.readers.trans (Finset.sum_eq_zero fun r _ => ?_)
        cases hr : role r with
        | reader => rwa [hone r q hr hq]
        | writer => exact (h.places r).2 hr
      · exact fun hz => pos_of_open h.inv.readers hz

/-- **The only reader**, in every run with any number of writers, started at any time. It prints a
prefix of `abcdefghx`, it is never told that the file has ended, and when it leaves its loop it has
printed all of `abcdefghx`. -/
theorem only_reader (hone : ∀ p q, role p = .reader → role q = .reader → p = q)
    {tr : List (ι × Op)} {w : Threads ι Shared Pc} (h : (system capacity role).Run tr w) {p : ι}
    (hp : role p = .reader) :
    (∀ printed, w.pc p = .read printed → printed <+: message) ∧
      (∀ printed eof, w.pc p = .done printed eof → printed = message ∧ eof = false) ∧
      ∀ printed, w.pc p = .ended printed → printed = message := by
  have hinv : OneReader role w := by
    refine Invariant.run (M := system capacity role) (interleave_invariant ?_ ?_) h
    · have hstart : (system capacity role).Invariant Inv := inv_invariant
      exact ⟨hstart.init _ rfl, fun _ => ⟨fun _ => rfl, fun _ => rfl⟩, fun _ _ => ⟨rfl, rfl, by simp⟩⟩
    · intro q op s pc s' y hw hs
      exact oneReader_step hone hw (step_cases hs)
  have hok := hinv.reader p hp
  refine ⟨?_, ?_, ?_⟩
  · intro printed hpc
    rw [hpc] at hok
    obtain ⟨rfl, hx, -⟩ := hok
    exact (Messages.isPrefix hinv.inv.stream hx).trans (List.prefix_append _ _)
  · intro printed eof hpc
    rw [hpc] at hok
    exact hok
  · intro printed hpc
    rw [hpc] at hok
    exact hok

end Runs

/-- Process 0 runs the reader, and the others run the writer. -/
def oneReader : Fin 3 → Role
  | 0 => .reader
  | _ => .writer

/-- Process `p` makes the FIFO and waits, processes `q` and `r` write, and process `p` reads. -/
def readFirst (p q r : ι) : List (ι × Op) :=
  [(p, .access), (p, .mkfifo), (p, .openFifo), (q, .access), (q, .openFifo), (r, .access),
    (r, .openFifo), (q, .write), (p, .peerOpens), (q, .exit), (p, .read), (r, .write)] ++
    List.replicate 8 (p, .read)

theorem messages_whole_readFirst :
    ∃ w, (system 65536 oneReader).Run (readFirst 0 1 2) w ∧
      ∃ n, w.shared.got = (List.replicate n message).flatten := by
  obtain ⟨w, hw, hp⟩ := exists_run_of_exec ⟨initial, fun _ => Pc.access⟩
    (next fun p => step 65536 (oneReader p)) (readFirst 0 1 2)
    (fun w => decide (∀ p, (w.pc p).reading = false)) (by decide)
  exact ⟨w, hw, (messages_whole hw).2 (of_decide_eq_true hp)⟩

theorem only_reader_readFirst :
    ∃ w, (system 65536 oneReader).Run (readFirst 0 1 2) w ∧
      ∃ printed, w.pc 0 = .done printed false ∧ printed = message := by
  obtain ⟨w, hw, hp⟩ := exists_run_of_exec ⟨initial, fun _ => Pc.access⟩
    (next fun p => step 65536 (oneReader p)) (readFirst 0 1 2)
    (fun w => match w.pc 0 with | .done _ false => true | _ => false) (by decide)
  have hone : ∀ p q, oneReader p = .reader → oneReader q = .reader → p = q := by decide
  split at hp
  · next printed hpc => exact ⟨w, hw, printed, hpc, ((only_reader hone hw rfl).2.1 _ _ hpc).1⟩
  · cases hp

end LinuxDemo.FifoTest
