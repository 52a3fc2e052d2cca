import Mathlib.Data.Fintype.BigOperators
import LinuxDemo.Lib.CString
import LinuxDemo.Lib.Threads

/-!
# The POSIX message queue

`process/posix-ipc/msg-queue/main.c`: any number of processes run `main`. A process creates the
queue, for writing only, or opens the existing one. Then it looks how many messages there are, sends
`abc` if there is none, and receives one otherwise. Other processes can come between the look and
the call.

* `messages_exact`: a message in the queue was sent and not received, all messages are `abc`, and
  the one process that cannot receive is the creator.
* `stuck_waiting`: when no process can go on, those that are left wait for a message in an empty
  queue, or for room in a full one.
-/

namespace LinuxDemo.MessageQueue

open Lts Threads

variable {ι : Type*}

def abc : List Byte := literal ['a', 'b', 'c']

/-- What a process executes next; `creator` says that it has the queue open for writing only. -/
inductive Pc where
  /-- `mq_open(mqName, O_CREAT | O_EXCL | O_WRONLY, ..)`. -/
  | create
  /-- `mq_open(mqName, O_RDWR)`. -/
  | openExisting
  | getattr (creator : Bool)
  | send
  | receive (creator : Bool)
  /-- `mq_send` has returned. -/
  | sent
  /-- `mq_receive` has returned with the message. -/
  | received (msg : List Byte)
  /-- `mq_receive` has failed with `EBADF`. -/
  | badDescriptor
  /-- `main` has returned -1. -/
  | failed
  deriving DecidableEq

/-- What a process does in one step. -/
inductive Op where
  | create
  /-- `mq_open` fails, because the queue exists or for another reason. -/
  | createFails
  | openExisting (ok : Bool)
  | getattr
  /-- Waits while the queue is full. -/
  | send
  /-- Waits while the queue is empty. -/
  | receive
  deriving DecidableEq

/-- The queue, when it exists. -/
abbrev Queue := Option (List (List Byte))

/-- A process executes one step. -/
def step (maxMsg : ℕ) : Op → Queue → Pc → Option (Queue × Pc)
  | .create, none, .create => some (some [], .getattr true)
  | .createFails, q, .create => some (q, .openExisting)
  | .openExisting true, some msgs, .openExisting => some (some msgs, .getattr false)
  | .openExisting false, q, .openExisting => some (q, .failed)
  | .getattr, some msgs, .getattr c =>
    some (some msgs, if msgs.length = 0 then .send else .receive c)
  | .send, some msgs, .send =>
    if msgs.length < maxMsg then some (some (msgs ++ [abc]), .sent) else none
  | .receive, q, .receive true => some (q, .badDescriptor)
  | .receive, some (msg :: msgs), .receive false => some (some msgs, .received msg)
  | _, _, _ => none

/-- Any number of processes, started at any time. -/
def system (ι : Type*) [DecidableEq ι] (maxMsg : ℕ) : Lts (Threads ι Queue Pc) (ι × Op) :=
  interleave none (fun _ => .create) fun _ => step maxMsg

/-! ## What one step does -/

/-- Everything a step of `main` can do. -/
inductive Step (maxMsg : ℕ) : Op → Queue → Pc → Queue → Pc → Prop
  | create : Step maxMsg .create none .create (some []) (.getattr true)
  | createFails {q : Queue} : Step maxMsg .createFails q .create q .openExisting
  | openFinds {msgs : List (List Byte)} :
      Step maxMsg (.openExisting true) (some msgs) .openExisting (some msgs) (.getattr false)
  | openFails {q : Queue} : Step maxMsg (.openExisting false) q .openExisting q .failed
  | seesNone {c : Bool} : Step maxMsg .getattr (some []) (.getattr c) (some []) .send
  | seesSome {msg : List Byte} {msgs : List (List Byte)} {c : Bool} :
      Step maxMsg .getattr (some (msg :: msgs)) (.getattr c) (some (msg :: msgs)) (.receive c)
  | send {msgs : List (List Byte)} (h : msgs.length < maxMsg) :
      Step maxMsg .send (some msgs) .send (some (msgs ++ [abc])) .sent
  | badDescriptor {q : Queue} : Step maxMsg .receive q (.receive true) q .badDescriptor
  | receive {msg : List Byte} {msgs : List (List Byte)} :
      Step maxMsg .receive (some (msg :: msgs)) (.receive false) (some msgs) (.received msg)

theorem step_cases {maxMsg : ℕ} {op : Op} {q q' : Queue} {x y : Pc}
    (h : step maxMsg op q x = some (q', y)) : Step maxMsg op q x q' y := by
  unfold step at h
  split at h
  · cases h
    exact .create
  · cases h
    exact .createFails
  · cases h
    exact .openFinds
  · cases h
    exact .openFails
  · next msgs c =>
    cases msgs with
    | nil =>
      cases h
      exact .seesNone
    | cons msg msgs =>
      cases h
      exact .seesSome
  · split_ifs at h with hfull
    cases h
    exact .send hfull
  · cases h
    exact .badDescriptor
  · cases h
    exact .receive
  · cases h

/-! ## The account -/

namespace Pc

/-- The messages a process has sent. -/
def sends : Pc → ℕ
  | sent => 1
  | _ => 0

/-- The messages a process has received. -/
def receives : Pc → ℕ
  | received _ => 1
  | _ => 0

/-- The process has the queue open for writing only. -/
def creates : Pc → ℕ
  | getattr true | receive true | badDescriptor => 1
  | _ => 0

/-- `main` has returned, or is about to. -/
def returned : Pc → Bool
  | sent | received _ | badDescriptor | failed => true
  | _ => false

/-- What holds at a place of `main`. -/
def Ok (q : Queue) : Pc → Prop
  | create | openExisting | failed => True
  | received msg => msg = abc ∧ q.isSome = true
  | _ => q.isSome = true

theorem Ok.mono {q q' : Queue} {x : Pc} (h : x.Ok q) (hq : q.isSome = true → q'.isSome = true) :
    x.Ok q' := by
  cases x with
  | create | openExisting | failed => trivial
  | received msg => exact ⟨h.1, hq h.2⟩
  | _ => exact hq h

end Pc

/-- The messages in the queue. -/
def messages (q : Queue) : List (List Byte) := q.getD []

structure Inv [Fintype ι] (maxMsg : ℕ) (w : Threads ι Queue Pc) : Prop where
  balance : (messages w.shared).length + ∑ p, (w.pc p).receives = ∑ p, (w.pc p).sends
  abc : ∀ msg ∈ messages w.shared, msg = abc
  bound : (messages w.shared).length ≤ maxMsg
  /-- There is one creator, and none before there is a queue. -/
  creator : ∑ p, (w.pc p).creates ≤ w.shared.isSome.toNat
  ok : ∀ p, (w.pc p).Ok w.shared

/-- What a step does to the queue and to the account of a process. -/
theorem Step.counted {maxMsg : ℕ} {op : Op} {q q' : Queue} {x y : Pc} (h : Step maxMsg op q x q' y)
    (hok : x.Ok q) (habc : ∀ msg ∈ messages q, msg = abc)
    (hbound : (messages q).length ≤ maxMsg) :
    (messages q').length + y.receives + x.sends =
        (messages q).length + x.receives + y.sends ∧
      (∀ msg ∈ messages q', msg = MessageQueue.abc) ∧ (messages q').length ≤ maxMsg ∧
      y.creates + q.isSome.toNat ≤ x.creates + q'.isSome.toNat ∧
      (q.isSome = true → q'.isSome = true) ∧ y.Ok q' := by
  cases h with
  | create => exact ⟨rfl, habc, hbound, le_rfl, fun _ => rfl, rfl⟩
  | createFails | openFails => exact ⟨rfl, habc, hbound, le_rfl, id, trivial⟩
  | openFinds => exact ⟨rfl, habc, hbound, le_rfl, id, rfl⟩
  | @seesNone c => exact ⟨rfl, habc, hbound, by cases c <;> simp [Pc.creates], id, rfl⟩
  | @seesSome _ _ c => exact ⟨rfl, habc, hbound, by cases c <;> simp [Pc.creates], id, rfl⟩
  | send h =>
    refine ⟨by simp [messages, Pc.sends, Pc.receives], ?_, ?_, le_rfl, fun _ => rfl, rfl⟩
    · intro msg hmsg
      rcases List.mem_append.1 hmsg with hmsg | hmsg
      · exact habc msg hmsg
      · exact List.mem_singleton.1 hmsg
    · simp only [messages, Option.getD_some, List.length_append, List.length_singleton]
      omega
  | badDescriptor => exact ⟨rfl, habc, hbound, le_rfl, id, hok⟩
  | @receive msg msgs =>
    refine ⟨by simp [messages, Pc.sends, Pc.receives], ?_, ?_, le_rfl, fun _ => rfl, ?_⟩
    · intro m hm
      exact habc m (List.mem_cons_of_mem _ hm)
    · simp only [messages, Option.getD_some, List.length_cons] at hbound ⊢
      omega
    · exact ⟨habc msg List.mem_cons_self, rfl⟩

section Runs

variable [DecidableEq ι] [Fintype ι] {maxMsg : ℕ} {q q' : Queue} {pc : ι → Pc} {p : ι} {op : Op}
  {y : Pc}

theorem inv_invariant : (system ι maxMsg).Invariant (Inv maxMsg) := by
  apply interleave_invariant
  · exact ⟨by simp [messages, Pc.receives, Pc.sends], by simp [messages], by simp [messages],
      by simp [Pc.creates], fun _ => trivial⟩
  · intro p op q pc q' y h hs
    obtain ⟨hbalance, habc, hbound, hcreates, hmono, hok⟩ :=
      (step_cases hs).counted (h.ok p) h.abc h.bound
    have hold : (messages q).length + ∑ r, (pc r).receives = ∑ r, (pc r).sends := h.balance
    have hcreator : ∑ r, (pc r).creates ≤ q.isSome.toNat := h.creator
    refine ⟨?_, habc, hbound, ?_, ?_⟩
    · have hreceives := sum_update Pc.receives pc p y
      have hsends := sum_update Pc.sends pc p y
      show (messages q').length + ∑ r, (Function.update pc p y r).receives =
        ∑ r, (Function.update pc p y r).sends
      omega
    · have hsum := sum_update Pc.creates pc p y
      show ∑ r, (Function.update pc p y r).creates ≤ q'.isSome.toNat
      omega
    · exact (Function.forall_update_iff pc fun _ (x : Pc) => x.Ok q').2
        ⟨hok, fun r _ => (h.ok r).mono hmono⟩

/-- **Every message**, in every run. What is in the queue was sent and not received, never more than
`maxMsg` messages; every message in the queue and every one that is received is `abc`; and at most
one process, the creator, gets `EBADF`. -/
theorem messages_exact {tr : List (ι × Op)} {w : Threads ι Queue Pc}
    (h : (system ι maxMsg).Run tr w) :
    (messages w.shared).length + ∑ p, (w.pc p).receives = ∑ p, (w.pc p).sends ∧
      (messages w.shared).length ≤ maxMsg ∧
      (∀ msg ∈ messages w.shared, msg = abc) ∧
      (∀ p msg, w.pc p = .received msg → msg = abc) ∧
      ∀ p q, (w.pc p).creates = 1 → (w.pc q).creates = 1 → p = q := by
  have hinv := inv_invariant.run h
  refine ⟨hinv.balance, hinv.bound, hinv.abc, ?_, ?_⟩
  · intro p msg hp
    have hok := hinv.ok p
    rw [hp] at hok
    exact hok.1
  · intro p q hp hq
    refine eq_of_sum_le_one (f := fun r => (w.pc r).creates) ?_ (by omega) (by omega)
    exact hinv.creator.trans (Bool.toNat_le _)

/-- **Where the processes get stuck**, in every run. When no process can take a step, each of them
has returned, or waits for a message in an empty queue (then as many messages were received as were
sent), or waits for room in a full one. -/
theorem stuck_waiting {tr : List (ι × Op)} {w : Threads ι Queue Pc}
    (h : (system ι maxMsg).Run tr w) (hstuck : ∀ p op, step maxMsg op w.shared (w.pc p) = none)
    (p : ι) :
    (w.pc p).returned = true ∨
      (w.pc p = .receive false ∧ w.shared = some [] ∧
        ∑ q, (w.pc q).receives = ∑ q, (w.pc q).sends) ∨
      (w.pc p = .send ∧ (messages w.shared).length = maxMsg) := by
  have hinv := inv_invariant.run h
  have hok := hinv.ok p
  have hp := hstuck p
  cases hpc : w.pc p with
  | create =>
    have hfails := hp .createFails
    rw [hpc] at hfails
    cases hfails
  | openExisting =>
    have hfails := hp (.openExisting false)
    rw [hpc] at hfails
    cases hfails
  | getattr c =>
    rw [hpc] at hok
    obtain ⟨msgs, hq⟩ := Option.isSome_iff_exists.1 hok
    have hget := hp .getattr
    rw [hpc, hq] at hget
    cases hget
  | send =>
    rw [hpc] at hok
    obtain ⟨msgs, hq⟩ := Option.isSome_iff_exists.1 hok
    have hsend := hp .send
    have hbound := hinv.bound
    rw [hpc, hq] at hsend
    rw [hq] at hbound ⊢
    refine Or.inr (Or.inr ⟨rfl, le_antisymm hbound ?_⟩)
    by_contra hroom
    have hlt : msgs.length < maxMsg := Nat.not_le.1 hroom
    rw [show step maxMsg .send (some msgs) .send = _ from if_pos hlt] at hsend
    cases hsend
  | receive c =>
    rw [hpc] at hok
    obtain ⟨msgs, hq⟩ := Option.isSome_iff_exists.1 hok
    have hreceive := hp .receive
    rw [hpc, hq] at hreceive
    cases c with
    | true => cases hreceive
    | false =>
      cases msgs with
      | cons msg msgs => cases hreceive
      | nil =>
        have hbalance := hinv.balance
        rw [hq] at hbalance
        exact Or.inr (Or.inl ⟨rfl, hq, (Nat.zero_add _).symm.trans hbalance⟩)
  | sent | received | badDescriptor | failed => exact Or.inl rfl

end Runs

/-- Process `p` creates the queue, and both processes look at it before process `p` sends. -/
def bothSend (p q : ι) : List (ι × Op) :=
  [(p, .create), (q, .createFails), (q, .openExisting true), (p, .getattr), (q, .getattr),
    (p, .send)]

theorem messages_exact_bothSend :
    ∃ w, (system (Fin 2) 10).Run (bothSend 0 1) w ∧ messages w.shared = [abc] := by
  obtain ⟨w, hw, hp⟩ := exists_run_of_exec ⟨none, fun _ => Pc.create⟩ (next fun _ => step 10)
    (bothSend (0 : Fin 2) 1)
    (fun w => decide (∑ p, (w.pc p).sends = 1 ∧ ∑ p, (w.pc p).receives = 0)) (by decide)
  obtain ⟨hsends, hreceives⟩ := of_decide_eq_true hp
  obtain ⟨hbalance, -, habc, -⟩ := messages_exact hw
  rw [hsends, hreceives] at hbalance
  obtain ⟨msg, hmsg⟩ := List.length_eq_one_iff.1 hbalance
  rw [hmsg] at habc
  exact ⟨w, hw, by rw [hmsg, habc msg List.mem_cons_self]⟩

/-- The queue has room for one message, so process 1 waits. -/
theorem stuck_waiting_bothSend :
    ∃ w, (system (Fin 2) 1).Run (bothSend 0 1) w ∧ (messages w.shared).length = 1 := by
  obtain ⟨w, hw, hp⟩ := exists_run_of_exec ⟨none, fun _ => Pc.create⟩ (next fun _ => step 1)
    (bothSend (0 : Fin 2) 1)
    (fun w => decide (w.shared = some [abc] ∧ w.pc 0 = .sent ∧ w.pc 1 = .send)) (by decide)
  obtain ⟨hq, h0, h1⟩ := of_decide_eq_true hp
  have hstuck : ∀ p op, step 1 op w.shared (w.pc p) = none := by
    intro p op
    rw [hq]
    have hplace : w.pc p = .sent ∨ w.pc p = .send := by
      match p with
      | 0 => exact Or.inl h0
      | 1 => exact Or.inr h1
    rcases hplace with hpc | hpc <;> rw [hpc] <;> cases op with
    | openExisting ok => cases ok <;> rfl
    | _ => rfl
  refine ⟨w, hw, ?_⟩
  rcases stuck_waiting hw hstuck 1 with hr | ⟨hr, -⟩ | ⟨-, hfull⟩
  · rw [h1] at hr
    cases hr
  · rw [h1] at hr
    cases hr
  · exact hfull

end LinuxDemo.MessageQueue
