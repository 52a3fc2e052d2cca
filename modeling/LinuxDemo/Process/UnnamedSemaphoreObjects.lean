import Mathlib.Data.Fin.VecNotation
import LinuxDemo.Lib.Names
import LinuxDemo.Process.UnnamedSemaphoreCount

/-!
# The unnamed semaphore, with every object of the name

`process/posix-ipc/semaphore/unnamed.c`: the process that has created the object unlinks its name
at the end. Processes that come later create another object, while those that have opened the
first one are still at work with it. Each object has a semaphore and a number of its own.

**The view of one object** (`view`). The processes that work with another object, or with none yet,
are seen before their `shm_open`. In this view every run is a run of the system of one object
(`view_run`), since a name is unlinked only by the process that has created its object
(`Ordered.owner`). So what holds for one object holds for each.

* `increments_counted`: for each object, the processes exclude each other and the number counts all
  increments, in the runs where the opening processes map an initialised object and no `sem_wait`
  fails.
-/

namespace LinuxDemo.UnnamedSemaphore.Objects

open Lts Threads

variable {ι : Type*}

/-! ## The program -/

/-- Where a process is. -/
inductive Place where
  /-- `shm_open(name, O_CREAT | O_EXCL | O_RDWR, 0666)`. -/
  | create
  /-- `shm_open(name, O_RDWR, 0666)`. -/
  | openExisting
  /-- `main` has returned -1, without an object. -/
  | failed
  /-- It has opened the object `k`. -/
  | working (k : ℕ) (x : Pc)
  deriving DecidableEq

/-- An object that nobody has created. -/
def absent : Shared := ⟨.absent, none, 0⟩

/-- An object as `shm_open` creates it. -/
def newObject : Shared := ⟨⟨true, true, false⟩, none, 0⟩

/-- `shm_unlink(mapMame)`. -/
def unlinkName (n : Names Shared) : Names Shared :=
  match n.name with
  | none => n
  | some k => (n.put k { n.object k with object := (n.object k).object.unlink }).unlink

/-- A process executes one step. -/
def step (maxTestCount : ℕ) : Op → Names Shared → Place → Option (Names Shared × Place)
  | .map (.create true), n, .create =>
    (n.create newObject).map fun n' => (n', .working n.fresh (.map .ftruncate))
  | .map (.create false), n, .create => some (n, .openExisting)
  | .map (.openExisting true), n, .openExisting =>
    n.name.map fun k => (n, .working k (.map (.mmap false)))
  | .map (.openExisting false), n, .openExisting => some (n, .failed)
  | .unlink, n, .working k .unlink => some (unlinkName n, .working k (.exit 0))
  | op, n, .working k x =>
    (UnnamedSemaphore.step maxTestCount op (n.object k) x).map fun r =>
      (n.put k r.1, .working k r.2)
  | _, _, _ => none

/-- Any number of processes, started at any time. -/
def system (ι : Type*) [DecidableEq ι] (maxTestCount : ℕ) :
    Lts (Threads ι (Names Shared) Place) (ι × Op) :=
  interleave (.unused absent) (fun _ => .create) fun _ => step maxTestCount

/-- A process that maps an object it did not create finds it with its size and its semaphore
initialised. -/
def MapsReady (w : Threads ι (Names Shared) Place) (e : ι × Op) : Prop :=
  ∀ k, w.pc e.1 = .working k (.map (.mmap false)) → e.2 = .map (.mmap true) →
    (w.shared.object k).ready = true

/-- No `sem_wait` fails. -/
def WaitsReturn (_ : Threads ι (Names Shared) Place) (e : ι × Op) : Prop := e.2 ≠ .semWait false

/-! ## What one step does -/

/-- Everything a step of a process can do. -/
inductive Step (maxTestCount : ℕ) (n : Names Shared) : Op → Place → Names Shared → Place → Prop
  | create (h : n.name = none) :
      Step maxTestCount n (.map (.create true)) .create
        ⟨some n.fresh, Function.update n.object n.fresh newObject, n.fresh + 1⟩
        (.working n.fresh (.map .ftruncate))
  | createFails : Step maxTestCount n (.map (.create false)) .create n .openExisting
  | openFinds {k : ℕ} (h : n.name = some k) :
      Step maxTestCount n (.map (.openExisting true)) .openExisting n
        (.working k (.map (.mmap false)))
  | openFails : Step maxTestCount n (.map (.openExisting false)) .openExisting n .failed
  | unlink {k : ℕ} :
      Step maxTestCount n .unlink (.working k .unlink) (unlinkName n) (.working k (.exit 0))
  | work {op : Op} {k : ℕ} {x y : Pc} {s : Shared} (hx : x ≠ .unlink)
      (h : UnnamedSemaphore.step maxTestCount op (n.object k) x = some (s, y)) :
      Step maxTestCount n op (.working k x) (n.put k s) (.working k y)

theorem step_cases {maxTestCount : ℕ} {op : Op} {n n' : Names Shared} {a b : Place}
    (h : step maxTestCount op n a = some (n', b)) : Step maxTestCount n op a n' b := by
  unfold step at h
  split at h
  · obtain ⟨n', hn, he⟩ := Option.map_eq_some_iff.1 h
    cases he
    obtain ⟨hname, rfl⟩ := Names.create_eq_some.1 hn
    exact .create hname
  · cases h
    exact .createFails
  · obtain ⟨k, hk, he⟩ := Option.map_eq_some_iff.1 h
    cases he
    exact .openFinds hk
  · cases h
    exact .openFails
  · cases h
    exact .unlink
  · rename_i hunlink
    obtain ⟨⟨s, y⟩, hs, he⟩ := Option.map_eq_some_iff.1 h
    cases he
    refine .work ?_ hs
    rintro rfl
    cases UnnamedSemaphore.step_cases hs with
    | sem _ h => cases h
    | fault _ => simp [UnnamedSemaphore.step, semStep] at hs
    | unlink => exact hunlink rfl rfl
  · cases h

/-! ## The name and its objects -/

/-- A place of the process that has created its object and is still to unlink the name. -/
def owning : Pc → Bool
  | .map .ftruncate | .map (.mmap true) | .semInit | .getValue | .loop true _ | .wait true _
  | .load true _ | .store true _ _ | .post true _ | .munmap true | .close true | .unlink => true
  | _ => false

namespace Place

/-- The object of a process. -/
def handle : Place → Option ℕ
  | working k _ => some k
  | _ => none

/-- The object that a process has created and is still to unlink. -/
def owned : Place → Option ℕ
  | working k x => if owning x then some k else none
  | _ => none

/-- A process as the object `k` sees it. -/
def view (k : ℕ) : Place → Pc
  | working j x => if j = k then x else .map .create
  | _ => .map .create

theorem owned_eq_some {a : Place} {k : ℕ} :
    a.owned = some k ↔ ∃ x, a = working k x ∧ owning x = true := by
  cases a with
  | working j x =>
    by_cases hx : owning x = true
    · simp [owned, hx]
    · simp [owned, hx]
  | _ => simp [owned]

@[simp] theorem view_working (k : ℕ) (x : Pc) : (working k x).view k = x := if_pos rfl

theorem view_of_handle_ne {a : Place} {k : ℕ} (h : a.handle ≠ some k) :
    a.view k = .map .create := by
  cases a with
  | working j x => exact if_neg fun hj => h (congrArg some hj)
  | _ => rfl

theorem view_working_of_ne {j k : ℕ} (h : j ≠ k) (x : Pc) :
    (working j x).view k = .map .create :=
  if_neg h

end Place

/-- Objects are created in order, and the name leads to the object of the one process that is still
to unlink it. -/
structure Ordered (w : Threads ι (Names Shared) Place) : Prop where
  name : ∀ k, w.shared.name = some k →
    k < w.shared.fresh ∧ (w.shared.object k).object.named = true
  created : ∀ k < w.shared.fresh, (w.shared.object k).object.created = true
  unmade : ∀ k, w.shared.fresh ≤ k → w.shared.object k = absent
  handle : ∀ p k, (w.pc p).handle = some k → k < w.shared.fresh
  owner : ∀ p k, (w.pc p).owned = some k → w.shared.name = some k
  unique : ∀ p q k j, (w.pc p).owned = some k → (w.pc q).owned = some j → p = q

section Steps

variable {maxTestCount : ℕ} {s s' : Shared} {op : Op} {x y : Pc}

/-- Once the object is created, a step of `main` neither makes an owner nor, other than
`shm_unlink`, takes the name away. -/
theorem Step.owning (h : UnnamedSemaphore.Step maxTestCount s op x s' y) (hx : x ≠ .unlink)
    (hc : s.object.created = true) :
    (owning y = true → owning x = true) ∧ s'.object.created = true ∧
      s'.object.named = s.object.named := by
  cases h with
  | map h =>
    cases h with
    | create hnot => rw [hc] at hnot; cases hnot
    | @mmap c => cases c <;> exact ⟨id, hc, rfl⟩
    | _ => exact ⟨by simp [afterMap, Objects.owning], hc, rfl⟩
  | sem hv h =>
    cases h with
    | getValue => exact ⟨fun _ => rfl, hc, rfl⟩
    | @wait v i c | @waitFails v i c | @post v i c => cases c <;> exact ⟨id, hc, rfl⟩
  | @callWait c i | @load c i | @store c i v | @read c i | @munmap c | @close c =>
    cases c <;> exact ⟨id, hc, rfl⟩
  | semInit => exact ⟨fun _ => rfl, hc, rfl⟩
  | semInitFails | fault => exact ⟨fun hy => (by cases hy), hc, rfl⟩
  | unlink => exact absurd rfl hx

end Steps

section Runs

variable {maxTestCount : ℕ} {n n' : Names Shared} {pc : ι → Place} {p : ι} {op : Op} {b : Place}

@[simp] theorem unlinkName_of_name {k : ℕ} (h : n.name = some k) :
    unlinkName n =
      (n.put k { n.object k with object := (n.object k).object.unlink }).unlink := by
  simp [unlinkName, h]

variable [DecidableEq ι]

/-- Whoever owns an object after a step of `p` owned it before, if that is so for `p`. -/
theorem owned_update (hb : ∀ k, b.owned = some k → (pc p).owned = some k) (q : ι) (k : ℕ)
    (hq : (Function.update pc p b q).owned = some k) : (pc q).owned = some k := by
  by_cases hqp : q = p
  · subst hqp
    rw [Function.update_self] at hq
    exact hb k hq
  · rwa [Function.update_of_ne hqp] at hq

/-- A step that creates no object and makes no owner. -/
theorem Ordered.keep (h : Ordered ⟨n, pc⟩) (hfresh : n'.fresh = n.fresh)
    (hname : ∀ k, n'.name = some k → n.name = some k ∧
      (n'.object k).object.named = (n.object k).object.named)
    (hcreated : ∀ k, (n.object k).object.created = true → (n'.object k).object.created = true)
    (hunmade : ∀ k, n.fresh ≤ k → n'.object k = n.object k)
    (hhandle : ∀ k, b.handle = some k → k < n.fresh)
    (howned : ∀ q k, (Function.update pc p b q).owned = some k →
      (pc q).owned = some k ∧ n'.name = n.name) :
    Ordered ⟨n', Function.update pc p b⟩ := by
  have hf : (Threads.mk n' (Function.update pc p b)).shared.fresh = n.fresh := hfresh
  refine ⟨fun k hk => ?_, fun k hk => ?_, fun k hk => ?_, ?_, fun q k hq => ?_,
    fun q r k j hq hr => ?_⟩
  · obtain ⟨hold, hnamed⟩ := hname k hk
    obtain ⟨hlt, hold⟩ := h.name k hold
    exact ⟨by rw [hf]; exact hlt, hnamed.trans hold⟩
  · exact hcreated k (h.created k (hf ▸ hk))
  · exact (hunmade k (hf ▸ hk)).trans (h.unmade k (hf ▸ hk))
  · rw [hf]
    exact (Function.forall_update_iff _ fun _ (x : Place) => ∀ k, x.handle = some k → k < n.fresh).2
      ⟨hhandle, fun q _ => h.handle q⟩
  · obtain ⟨hold, hsame⟩ := howned q k hq
    exact hsame.trans (h.owner q k hold)
  · exact h.unique q r k j (howned q k hq).1 (howned r j hr).1

theorem Ordered.create (h : Ordered ⟨n, pc⟩) (hn : n.name = none) :
    Ordered ⟨⟨some n.fresh, Function.update n.object n.fresh newObject, n.fresh + 1⟩,
      Function.update pc p (.working n.fresh (.map .ftruncate))⟩ := by
  have howned : ∀ q k,
      (Function.update pc p (.working n.fresh (.map .ftruncate)) q).owned = some k →
        q = p ∧ k = n.fresh := by
    intro q k hq
    by_cases hqp : q = p
    · subst hqp
      rw [Function.update_self] at hq
      exact ⟨rfl, (Option.some.inj hq).symm⟩
    · rw [Function.update_of_ne hqp] at hq
      have hname : n.name = some k := h.owner q k hq
      rw [hn] at hname
      cases hname
  refine ⟨?_, fun k hk => ?_, fun k hk => ?_, ?_, fun q k hq => ?_, fun q r k j hq hr => ?_⟩
  · rintro k ⟨⟩
    refine ⟨Nat.lt_succ_self _, ?_⟩
    show (Function.update n.object n.fresh newObject n.fresh).object.named = true
    rw [Function.update_self]
    rfl
  · show (Function.update n.object n.fresh newObject k).object.created = true
    rcases Nat.lt_succ_iff_lt_or_eq.1 hk with hlt | rfl
    · rw [Function.update_of_ne hlt.ne]
      exact h.created k hlt
    · rw [Function.update_self]
      rfl
  · show Function.update n.object n.fresh newObject k = absent
    have hlt : n.fresh < k := hk
    rw [Function.update_of_ne hlt.ne']
    exact h.unmade k hlt.le
  · refine (Function.forall_update_iff _ fun _ (x : Place) =>
      ∀ k, x.handle = some k → k < n.fresh + 1).2
      ⟨?_, fun q _ k hq => (h.handle q k hq).trans (Nat.lt_succ_self _)⟩
    rintro k ⟨⟩
    exact Nat.lt_succ_self _
  · rw [(howned q k hq).2]
  · rw [(howned q k hq).1, (howned r j hr).1]

omit [DecidableEq ι] in
/-- An owner that unlinks the name takes its own object from it. -/
theorem Ordered.name_of_unlink (h : Ordered ⟨n, pc⟩) {k : ℕ} (hpc : pc p = .working k .unlink) :
    n.name = some k :=
  h.owner p k (by rw [show (Threads.mk n pc).pc p = _ from hpc]; rfl)

theorem ordered_step (h : Ordered ⟨n, pc⟩) (hs : Step maxTestCount n op (pc p) n' b) :
    Ordered ⟨n', Function.update pc p b⟩ := by
  have hhandle := h.handle p
  dsimp only at hhandle
  generalize hpc : pc p = a at hs hhandle
  cases hs with
  | create hn => exact h.create hn
  | createFails | openFails =>
    exact h.keep rfl (fun k hk => ⟨hk, rfl⟩) (fun _ => id) (fun _ _ => rfl)
      (fun k hk => by cases hk) fun q k hq => ⟨owned_update (fun j hj => by cases hj) q k hq, rfl⟩
  | @openFinds k hk =>
    refine h.keep rfl (fun k hk => ⟨hk, rfl⟩) (fun _ => id) (fun _ _ => rfl) ?_
      fun q k hq => ⟨owned_update (fun j hj => by cases hj) q k hq, rfl⟩
    rintro k ⟨⟩
    exact (h.name _ hk).1
  | @unlink k =>
    have hname := h.name_of_unlink hpc
    have hmine : (pc p).owned = some k := by rw [hpc]; rfl
    rw [unlinkName_of_name hname]
    refine h.keep rfl (fun j hj => by cases hj) (fun j hj => ?_) (fun j hj => ?_) hhandle
      fun q j hq => ?_
    · show (Function.update n.object k _ j).object.created = true
      by_cases hjk : j = k
      · subst hjk
        rw [Function.update_self]
        exact hj
      · rwa [Function.update_of_ne hjk]
    · exact Names.put_object_of_ne (hhandle k rfl |>.trans_le hj).ne'
    · -- Only process `p` owns an object, so nobody is left.
      have hold := owned_update (b := .working k (.exit 0)) (fun i hi => by cases hi) q j hq
      have hqp : q = p := h.unique q p j k hold hmine
      subst hqp
      rw [Function.update_self] at hq
      cases hq
  | @work _ k x y s hx hlocal =>
    obtain ⟨hown, hc, hnamed⟩ := Step.owning (UnnamedSemaphore.step_cases hlocal) hx
      (h.created k (hhandle k rfl))
    refine h.keep rfl (fun j hj => ⟨hj, ?_⟩) (fun j hj => ?_) (fun j hj => ?_) hhandle
      fun q j hq => ⟨owned_update (fun i hi => ?_) q j hq, rfl⟩
    · by_cases hjk : j = k
      · subst hjk
        rw [Names.put_object_self]
        exact hnamed
      · rw [Names.put_object_of_ne hjk]
    · by_cases hjk : j = k
      · subst hjk
        rw [Names.put_object_self]
        exact hc
      · rwa [Names.put_object_of_ne hjk]
    · exact Names.put_object_of_ne (hhandle k rfl |>.trans_le hj).ne'
    · obtain ⟨z, hz, hzown⟩ := Place.owned_eq_some.1 hi
      cases hz
      rw [hpc]
      exact Place.owned_eq_some.2 ⟨x, rfl, hown hzown⟩

theorem ordered_invariant : (system ι maxTestCount).Invariant Ordered := by
  apply interleave_invariant
  · refine ⟨fun k hk => ?_, fun k hk => absurd hk (Nat.not_lt_zero k), fun k _ => rfl,
      fun p k hp => ?_, fun p k hp => ?_, fun p q k j hp => ?_⟩
    · cases hk
    · cases hp
    · cases hp
    · cases hp
  · intro p op n pc n' y h hs
    exact ordered_step h (step_cases hs)

/-! ## The view of one object -/

/-- The run as the object `k` sees it. -/
def view (k : ℕ) (w : Threads ι (Names Shared) Place) : Threads ι Shared Pc :=
  ⟨w.shared.object k, fun p => (w.pc p).view k⟩

/-- The runs of the system of one object in which the opening processes map the initialised object
and every `sem_wait` returns with the unit. -/
def single (ι : Type*) [DecidableEq ι] (maxTestCount : ℕ) : Lts (Threads ι Shared Pc) (ι × Op) :=
  ((UnnamedSemaphore.system ι maxTestCount).guard UnnamedSemaphore.MapsReady).guard
    UnnamedSemaphore.WaitsReturn

theorem view_update (k : ℕ) :
    view k ⟨n', Function.update pc p b⟩ =
      ⟨n'.object k, Function.update (fun q => (pc q).view k) p (b.view k)⟩ := by
  refine congrArg (Threads.mk _) (funext fun q => ?_)
  exact Function.apply_update (fun _ => Place.view k) pc p b q

/-- A step that the object `k` does not see. -/
theorem view_unseen {k : ℕ} (hobject : n'.object k = n.object k) (hb : b.view k = (pc p).view k)
    (h : (single ι maxTestCount).Reachable (view k ⟨n, pc⟩)) :
    (single ι maxTestCount).Reachable (view k ⟨n', Function.update pc p b⟩) := by
  rw [view_update, hobject, hb, Function.update_eq_self p fun q => (pc q).view k]
  exact h

variable (op) in
/-- A step of the system of one object. -/
theorem single_step {s s' : Shared} {pc : ι → Pc} {x y : Pc} (hpc : pc p = x)
    (h : (single ι maxTestCount).Reachable ⟨s, pc⟩)
    (hs : UnnamedSemaphore.step maxTestCount op s x = some (s', y))
    (hmaps : x = .map (.mmap false) → op = .map (.mmap true) → s.ready = true)
    (hwait : op ≠ .semWait false) :
    (single ι maxTestCount).Reachable ⟨s', Function.update pc p y⟩ := by
  subst hpc
  refine h.step (e := (p, op)) ⟨⟨?_, hmaps⟩, hwait⟩
  show Threads.next _ _ _ = _
  simp [Threads.next, hs]

variable (op) in
/-- A step that is one of the system of one object. -/
theorem view_seen {k : ℕ} {x y : Pc} (hx : (pc p).view k = x) (hy : b.view k = y)
    (h : (single ι maxTestCount).Reachable (view k ⟨n, pc⟩))
    (hs : UnnamedSemaphore.step maxTestCount op (n.object k) x = some (n'.object k, y))
    (hmaps : x = .map (.mmap false) → op = .map (.mmap true) → (n.object k).ready = true)
    (hwait : op ≠ .semWait false) :
    (single ι maxTestCount).Reachable (view k ⟨n', Function.update pc p b⟩) := by
  rw [view_update, hy]
  exact single_step op hx h hs hmaps hwait

/-- What a step is to the object `k`: nothing, or one or two steps of the system of one object. -/
theorem view_step (h : Ordered ⟨n, pc⟩) (hmaps : MapsReady ⟨n, pc⟩ (p, op))
    (hwait : op ≠ .semWait false) (hs : Step maxTestCount n op (pc p) n' b) (k : ℕ)
    (hk : (single ι maxTestCount).Reachable (view k ⟨n, pc⟩)) :
    (single ι maxTestCount).Reachable (view k ⟨n', Function.update pc p b⟩) := by
  generalize hpc : pc p = a at hs
  cases hs with
  | create hn =>
    have hx : (pc p).view k = .map .create := by rw [hpc]; rfl
    by_cases hkf : k = n.fresh
    · subst hkf
      have habsent : n.object n.fresh = absent := h.unmade n.fresh le_rfl
      have hnew : Function.update n.object n.fresh newObject n.fresh = newObject :=
        Function.update_self ..
      refine view_seen (.map (.create true)) hx (Place.view_working ..) hk ?_
        (fun hx => by cases hx) (by simp)
      dsimp only
      rw [habsent, hnew]
      rfl
    · refine view_unseen (Function.update_of_ne hkf _ n.object) ?_ hk
      rw [hx, Place.view_working_of_ne (Ne.symm hkf)]
  | createFails | openFails => exact view_unseen rfl (by rw [hpc]; rfl) hk
  | @openFinds j hj =>
    have hx : (pc p).view k = .map .create := by rw [hpc]; rfl
    by_cases hjk : j = k
    · -- The object sees both calls of `shm_open` now.
      subst hjk
      have hnamed : (n.object j).object.named = true := (h.name j hj).2
      have hfails : (single ι maxTestCount).Reachable
          ⟨n.object j, Function.update (fun q => (pc q).view j) p (.map .openExisting)⟩ :=
        single_step (.map (.create false)) hx hk rfl (fun hx => by cases hx) (by simp)
      have hfinds : (single ι maxTestCount).Reachable
          ⟨n.object j, Function.update (Function.update (fun q => (pc q).view j) p
            (.map .openExisting)) p (.map (.mmap false))⟩ :=
        single_step (.map (.openExisting true)) (Function.update_self ..) hfails
          (by simp [UnnamedSemaphore.step, Shm.step, hnamed, afterMap])
          (fun hx => by cases hx) (by simp)
      rw [Function.update_idem] at hfinds
      rw [view_update, Place.view_working]
      exact hfinds
    · refine view_unseen rfl ?_ hk
      rw [hx, Place.view_working_of_ne hjk]
  | @unlink j =>
    have hobject : (unlinkName n).object = Function.update n.object j
        { n.object j with object := (n.object j).object.unlink } := by
      rw [unlinkName_of_name (h.name_of_unlink hpc)]
      rfl
    by_cases hjk : j = k
    · subst hjk
      have hx : (pc p).view j = .unlink := by rw [hpc]; exact Place.view_working ..
      refine view_seen .unlink hx (Place.view_working ..) hk ?_ (fun hx => by cases hx) (by simp)
      rw [hobject, Function.update_self]
      rfl
    · refine view_unseen ?_ ?_ hk
      · rw [hobject, Function.update_of_ne (Ne.symm hjk)]
      · rw [hpc, Place.view_working_of_ne hjk, Place.view_working_of_ne hjk]
  | @work _ j x y s hx hlocal =>
    by_cases hjk : j = k
    · subst hjk
      have hx : (pc p).view j = x := by rw [hpc]; exact Place.view_working ..
      refine view_seen op hx (Place.view_working ..) hk ?_ ?_ hwait
      · rw [Names.put_object_self]
        exact hlocal
      · intro hmap
        exact hmaps j (hpc.trans (congrArg _ hmap))
    · refine view_unseen (Names.put_object_of_ne (Ne.symm hjk)) ?_ hk
      rw [hpc, Place.view_working_of_ne hjk, Place.view_working_of_ne hjk]

/-- **Every object sees a run of the system of one object**, in every run in which the opening
processes map an initialised object and no `sem_wait` fails. -/
theorem view_run {tr : List (ι × Op)} {w : Threads ι (Names Shared) Place}
    (h : ((system ι maxTestCount).guard fun w e => MapsReady w e ∧ WaitsReturn w e).Run tr w)
    (k : ℕ) : (single ι maxTestCount).Reachable (view k w) := by
  refine (ordered_invariant.guard_and (J := fun w => ∀ k, (single ι maxTestCount).Reachable
    (view k w)) ?_ ?_).run h |>.2 k
  · rintro w rfl k
    exact ⟨[], .init rfl⟩
  · rintro w ⟨p, op⟩ w' hordered hk hstep hG k
    obtain ⟨n', b, hlocal, rfl⟩ := interleave_step hstep
    exact view_step hordered hG.1 hG.2 (step_cases hlocal) k (hk k)

variable [Fintype ι]

omit [DecidableEq ι] in
/-- The increments of processes that have finished their loops or returned -1. -/
theorem sum_done {w : Threads ι Shared Pc} (h : Inv maxTestCount w)
    (hend : ∀ p, w.pc p = .map .create ∨ (w.pc p).finished maxTestCount = true ∨
      w.pc p = .exit (-1)) :
    ∑ p, (w.pc p).done maxTestCount =
      (Finset.univ.filter fun p => (w.pc p).finished maxTestCount = true).card * maxTestCount := by
  have hdone : ∀ p, (w.pc p).done maxTestCount =
      if (w.pc p).finished maxTestCount = true then maxTestCount else 0 := by
    intro p
    split_ifs with hf
    · exact Pc.done_of_finished hf (h.ok p)
    · rcases hend p with hp | hp | hp
      · rw [hp]
        rfl
      · exact absurd hp hf
      · rw [hp]
        rfl
  rw [Finset.sum_congr rfl fun p _ => hdone p, ← Finset.sum_filter]
  simp

/-- **No lost update on any object**, in every run in which the opening processes map an initialised
object and no `sem_wait` fails. For each object that was ever created, at most one process is
between `sem_wait` and `sem_post`, and the number is the sum of the increments of the processes that
work with it (modulo `2 ^ 32`). Once each of these has finished its loop or returned -1, the number
is `maxTestCount` for every one that has finished. -/
theorem increments_counted {tr : List (ι × Op)} {w : Threads ι (Names Shared) Place}
    (h : ((system ι maxTestCount).guard fun w e => MapsReady w e ∧ WaitsReturn w e).Run tr w)
    (k : ℕ) :
    (∀ p q, ((w.pc p).view k).units = 1 → ((w.pc q).view k).units = 1 → p = q) ∧
      (w.shared.object k).number = BitVec.ofNat 32 (∑ p, ((w.pc p).view k).done maxTestCount) ∧
      ((∀ p, (w.pc p).handle = some k → ((w.pc p).view k).finished maxTestCount = true ∨
          (w.pc p).view k = .exit (-1)) →
        (w.shared.object k).number = BitVec.ofNat 32
          ((Finset.univ.filter fun p => ((w.pc p).view k).finished maxTestCount = true).card *
            maxTestCount)) := by
  obtain ⟨tr', hrun⟩ := view_run h k
  have hinv : Inv maxTestCount (view k w) := inv_run hrun
  refine ⟨fun p q => hinv.exclusive, hinv.number, fun hend => ?_⟩
  refine hinv.number.trans (congrArg _ (sum_done hinv fun p => ?_))
  by_cases hp : (w.pc p).handle = some k
  · exact Or.inr (hend p hp)
  · exact Or.inl (Place.view_of_handle_ne hp)

end Runs

/-- Process `p` creates an object and initialises it. -/
def createAndInit (p : Fin 3) : List (Fin 3 × Op) :=
  [(p, .map (.create true)), (p, .map (.ftruncate true)), (p, .map (.mmap true)),
   (p, .semInit true), (p, .getValue)]

/-- Process `p` makes one increment. -/
def increment (p : Fin 3) : List (Fin 3 × Op) :=
  [(p, .callWait), (p, .semWait true), (p, .load), (p, .store), (p, .semPost)]

/-- Process `p` leaves `main`, and unlinks the name. -/
def finish (p : Fin 3) : List (Fin 3 × Op) := [(p, .read), (p, .munmap), (p, .close), (p, .unlink)]

/-- Process 1 has opened the object of process 0, which then unlinks the name, and goes on while
process 2 creates another object. -/
def secondObject : List (Fin 3 × Op) :=
  createAndInit 0 ++ [(1, .map (.create false)), (1, .map (.openExisting true)),
    (1, .map (.mmap true))] ++ increment 0 ++ finish 0 ++ createAndInit 2 ++ [(1, .callWait)] ++
    increment 2 ++ (increment 1).tail

theorem increments_counted_second :
    ∃ w : Threads (Fin 3) (Names Shared) Place,
      ((system (Fin 3) 1).guard fun w e => MapsReady w e ∧ WaitsReturn w e).Run secondObject w ∧
      (w.shared.object 0).number = 2 ∧ (w.shared.object 1).number = 1 := by
  obtain ⟨w, hw, hp⟩ := exists_guard_run_of_exec (next fun _ => step 1)
    (G := fun w e => MapsReady w e ∧ WaitsReturn w e)
    (T := fun w e => (∀ k ∈ (w.pc e.1).handle, w.pc e.1 = .working k (.map (.mmap false)) →
      e.2 = .map (.mmap true) → (w.shared.object k).ready = true) ∧ e.2 ≠ .semWait false)
    (fun w e h => ⟨fun k hk => h.1 k (by rw [hk]; rfl) hk, h.2⟩)
    (.init rfl : ((system (Fin 3) 1).guard _).Run [] _) secondObject
    (fun w => decide (w.pc = ![.working 0 (.exit 0), .working 0 (.loop false 1),
      .working 1 (.loop true 1)])) (by decide)
  have hpc := of_decide_eq_true hp
  refine ⟨w, hw, ?_, ?_⟩
  · rw [(increments_counted hw 0).2.2 (by rw [hpc]; decide), hpc]
    decide
  · rw [(increments_counted hw 1).2.2 (by rw [hpc]; decide), hpc]
    decide

end LinuxDemo.UnnamedSemaphore.Objects
