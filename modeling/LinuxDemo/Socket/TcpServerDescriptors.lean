import Mathlib.Data.Int.Notation
import Mathlib.Data.Nat.Notation
import Mathlib.Tactic.SplitIfs
import LinuxDemo.Lib.Lts

/-!
# The sockets of `socket/internet_tcp/server.c`

`main` tries the addresses of `getaddrinfo` until it can bind a socket to one, and then accepts
connections for ever. There are many ways round the two loops; each has to close what it has
opened.

The addresses come with what happens to them: `socket` fails, `bind` fails, or both succeed. The
kernel chooses the descriptors, and all other calls succeed or fail at any time.

* `Inv`: which sockets are open at each place of `main`.
* `descriptor_balance`: at `accept` only the listening socket is open, bound to the first address
  for which `socket` and `bind` succeeded; when there is none, no socket is open at `fatalError`.
-/

namespace LinuxDemo.TcpServerDescriptors

open Lts

/-- What comes of an address. -/
inductive Attempt where
  | socketFails
  | bindFails
  | succeeds
  deriving DecidableEq

/-- A descriptor. -/
abbrev Fd := ℕ

/-- An open socket, for addresses `α`. -/
inductive Sock (α : Type*) where
  | unbound
  | bound (a : α)
  | listening (a : α)
  /-- What `accept` has returned. -/
  | connection
  deriving DecidableEq

/-- The call of `fatalError` that `main` has reached. -/
inductive Fatal where
  | setSockOpt
  /-- `"couldn't bind socket to any address"`. -/
  | noAddress
  | listen
  deriving DecidableEq

/-- What `main` executes next. -/
inductive Pc (α : Type*) where
  /-- The test of the bind loop, and `socket`; `rp` is what is left of the list. -/
  | socket (rp : List (α × Attempt))
  | setsockopt (a : α) (attempt : Attempt) (rp : List (α × Attempt)) (lfd : Fd)
  | bind (a : α) (attempt : Attempt) (rp : List (α × Attempt)) (lfd : Fd)
  /-- `close(lfd)` after `bind` has failed. -/
  | closeTried (rp : List (α × Attempt)) (lfd : Fd)
  | listen (lfd : Fd)
  | accept (lfd : Fd)
  | readLine (lfd cltFd : Fd)
  | write (lfd cltFd : Fd)
  /-- `close(cltFd)`, after a failed or empty read or after the answer. -/
  | closeClt (lfd cltFd : Fd)
  | fatal (msg : Fatal)
  deriving DecidableEq

/-- What a call returns. -/
inductive Event where
  /-- `socket` returns a descriptor, or fails. -/
  | socket (fd : Option Fd)
  /-- `rp == NULL`. -/
  | endOfList
  | setsockopt (ok : Bool)
  | bind
  | close
  | listen (ok : Bool)
  | accept (fd : Option Fd)
  | readLine (readSize : ℤ)
  | write (size : ℤ)
  deriving DecidableEq

/-- `main` and its open sockets. -/
structure World (α : Type*) where
  pc : Pc α
  sockets : Fd → Option (Sock α)

variable {α : Type*}

/-- `main` goes on at `y`. -/
def World.goto (w : World α) (y : Pc α) : World α := { w with pc := y }

/-- The descriptor `fd` becomes `x`. -/
def World.put (w : World α) (fd : Fd) (x : Option (Sock α)) (y : Pc α) : World α :=
  ⟨y, Function.update w.sockets fd x⟩

/-- The step of an event. -/
def next (w : World α) (e : Event) : Option (World α) :=
  match e, w.pc with
  | .endOfList, .socket [] => some (w.goto (.fatal .noAddress))
  | .socket none, .socket ((_, .socketFails) :: rp) => some (w.goto (.socket rp))
  | .socket (some fd), .socket ((a, attempt) :: rp) =>
    if attempt ≠ .socketFails ∧ (w.sockets fd).isNone then
      some (w.put fd (some .unbound) (.setsockopt a attempt rp fd))
    else none
  | .setsockopt ok, .setsockopt a attempt rp lfd =>
    some (w.goto (if ok then .bind a attempt rp lfd else .fatal .setSockOpt))
  | .bind, .bind a .succeeds _ lfd => some (w.put lfd (some (.bound a)) (.listen lfd))
  | .bind, .bind _ _ rp lfd => some (w.goto (.closeTried rp lfd))
  | .close, .closeTried rp lfd => some (w.put lfd none (.socket rp))
  | .listen true, .listen lfd =>
    match w.sockets lfd with
    | some (.bound a) => some (w.put lfd (some (.listening a)) (.accept lfd))
    | _ => none
  | .listen false, .listen _ => some (w.goto (.fatal .listen))
  | .accept none, .accept lfd => some (w.goto (.accept lfd))
  | .accept (some fd), .accept lfd =>
    if (w.sockets fd).isNone then some (w.put fd (some .connection) (.readLine lfd fd)) else none
  | .readLine readSize, .readLine lfd cltFd =>
    some (w.goto (if readSize ≤ 0 then .closeClt lfd cltFd else .write lfd cltFd))
  -- What `write` returns changes only what is printed.
  | .write _, .write lfd cltFd => some (w.goto (.closeClt lfd cltFd))
  | .close, .closeClt lfd cltFd => some (w.put cltFd none (.accept lfd))
  | _, _ => none

/-- `main` after `getaddrinfo`, with no socket open. -/
def system (result : List (α × Attempt)) : Lts (World α) Event :=
  ofNext ⟨.socket result, fun _ => none⟩ next

/-! ## What one step does -/

/-- Everything a step of `main` can do. -/
inductive Step (w : World α) : Pc α → World α → Prop
  | endOfList : Step w (.socket []) (w.goto (.fatal .noAddress))
  | socketFails {a : α} {rp : List (α × Attempt)} :
      Step w (.socket ((a, .socketFails) :: rp)) (w.goto (.socket rp))
  | socket {a : α} {attempt : Attempt} {rp : List (α × Attempt)} {fd : Fd} :
      Step w (.socket ((a, attempt) :: rp))
        (w.put fd (some .unbound) (.setsockopt a attempt rp fd))
  | setsockopt {a : α} {attempt : Attempt} {rp : List (α × Attempt)} {lfd : Fd} :
      Step w (.setsockopt a attempt rp lfd) (w.goto (.bind a attempt rp lfd))
  | bind {a : α} {rp : List (α × Attempt)} {lfd : Fd} :
      Step w (.bind a .succeeds rp lfd) (w.put lfd (some (.bound a)) (.listen lfd))
  | bindFails {a : α} {attempt : Attempt} {rp : List (α × Attempt)} {lfd : Fd}
      (h : attempt ≠ .succeeds) : Step w (.bind a attempt rp lfd) (w.goto (.closeTried rp lfd))
  | closeTried {rp : List (α × Attempt)} {lfd : Fd} :
      Step w (.closeTried rp lfd) (w.put lfd none (.socket rp))
  | listen {a : α} {lfd : Fd} (h : w.sockets lfd = some (.bound a)) :
      Step w (.listen lfd) (w.put lfd (some (.listening a)) (.accept lfd))
  | acceptFails {lfd : Fd} : Step w (.accept lfd) (w.goto (.accept lfd))
  | accept {lfd fd : Fd} (h : w.sockets fd = none) :
      Step w (.accept lfd) (w.put fd (some .connection) (.readLine lfd fd))
  | skip {lfd cltFd : Fd} : Step w (.readLine lfd cltFd) (w.goto (.closeClt lfd cltFd))
  | readLine {lfd cltFd : Fd} : Step w (.readLine lfd cltFd) (w.goto (.write lfd cltFd))
  | write {lfd cltFd : Fd} : Step w (.write lfd cltFd) (w.goto (.closeClt lfd cltFd))
  | closeClt {lfd cltFd : Fd} :
      Step w (.closeClt lfd cltFd) (w.put cltFd none (.accept lfd))
  /-- The other two calls of `fatalError`. -/
  | fatal {x : Pc α} {msg : Fatal} (h : msg ≠ .noAddress) : Step w x (w.goto (.fatal msg))

theorem next_cases {w w' : World α} {e : Event} (h : next w e = some w') : Step w w.pc w' := by
  unfold next at h
  generalize w.pc = x at h
  split at h
  · cases h
    exact .endOfList
  · cases h
    exact .socketFails
  · split_ifs at h
    cases h
    exact .socket
  · cases h
    split_ifs
    · exact .setsockopt
    · exact .fatal (by simp)
  · cases h
    exact .bind
  · rename_i hne
    cases h
    refine .bindFails ?_
    intro heq
    subst heq
    exact hne rfl
  · cases h
    exact .closeTried
  · split at h
    · rename_i hbound
      cases h
      exact .listen hbound
    · cases h
  · cases h
    exact .fatal (by simp)
  · cases h
    exact .acceptFails
  · split_ifs at h with hfree
    cases h
    exact .accept (Option.isNone_iff_eq_none.1 hfree)
  · cases h
    split_ifs
    · exact .skip
    · exact .readLine
  · cases h
    exact .write
  · cases h
    exact .closeClt
  · cases h

/-! ## Open sockets -/

/-- `fd` is the only open socket. -/
def only (fd : Fd) (x : Sock α) : Fd → Option (Sock α) :=
  Function.update (fun _ => none) fd (some x)

/-- The address that `main` should use: the first for which `socket` and `bind` succeed. -/
def firstBound (result : List (α × Attempt)) : Option α :=
  (result.find? (·.2 = .succeeds)).map Prod.fst

/-- Which sockets are open. While addresses are tried, the first one that will do is still among
those that are left. -/
def Inv (result : List (α × Attempt)) (w : World α) : Prop :=
  match w.pc with
  | .socket rp => w.sockets = (fun _ => none) ∧ firstBound rp = firstBound result
  | .setsockopt a attempt rp lfd | .bind a attempt rp lfd =>
    w.sockets = only lfd .unbound ∧ firstBound ((a, attempt) :: rp) = firstBound result
  | .closeTried rp lfd => w.sockets = only lfd .unbound ∧ firstBound rp = firstBound result
  | .listen lfd => ∃ a, w.sockets = only lfd (.bound a) ∧ firstBound result = some a
  | .accept lfd => ∃ a, w.sockets = only lfd (.listening a) ∧ firstBound result = some a
  | .readLine lfd cltFd | .write lfd cltFd | .closeClt lfd cltFd =>
    ∃ a, cltFd ≠ lfd ∧ firstBound result = some a ∧
      w.sockets = Function.update (only lfd (.listening a)) cltFd (some .connection)
  | .fatal .noAddress => w.sockets = (fun _ => none) ∧ firstBound result = none
  | .fatal _ => True

theorem put_only (fd : Fd) (x : Sock α) (y : Option (Sock α)) :
    Function.update (only fd x) fd y = Function.update (fun _ => none) fd y :=
  Function.update_idem _ _ _

theorem close_only (fd : Fd) (x : Sock α) :
    Function.update (only fd x) fd none = fun _ => none := by
  rw [put_only]
  exact Function.update_eq_self fd _

theorem firstBound_cons {a : α} {attempt : Attempt} {rp : List (α × Attempt)}
    (h : attempt ≠ .succeeds) : firstBound ((a, attempt) :: rp) = firstBound rp := by
  simp [firstBound, h]

theorem inv_step {result : List (α × Attempt)} {w w' : World α} (h : Inv result w)
    (hs : Step w w.pc w') : Inv result w' := by
  unfold Inv at h
  generalize w.pc = x at h hs
  cases hs with
  | endOfList => exact ⟨h.1, h.2.symm⟩
  | socketFails => exact ⟨h.1, (firstBound_cons (by simp)).symm.trans h.2⟩
  | socket =>
    refine ⟨?_, h.2⟩
    show Function.update w.sockets _ _ = _
    rw [h.1]
    rfl
  | setsockopt => exact h
  | @bind a rp lfd =>
    refine ⟨a, ?_, h.2.symm⟩
    show Function.update w.sockets _ _ = _
    rw [h.1, put_only]
    rfl
  | bindFails hne => exact ⟨h.1, (firstBound_cons hne).symm.trans h.2⟩
  | closeTried =>
    refine ⟨?_, h.2⟩
    show Function.update w.sockets _ _ = _
    rw [h.1, close_only]
  | listen hbound =>
    obtain ⟨a, hsockets, hfirst⟩ := h
    rw [hsockets, only, Function.update_self] at hbound
    cases hbound
    refine ⟨_, ?_, hfirst⟩
    show Function.update w.sockets _ _ = _
    rw [hsockets, put_only]
    rfl
  | acceptFails => exact h
  | accept hfree =>
    obtain ⟨a, hsockets, hfirst⟩ := h
    refine ⟨a, ?_, hfirst, ?_⟩
    · intro heq
      rw [heq, hsockets] at hfree
      simp [only] at hfree
    · show Function.update w.sockets _ _ = _
      rw [hsockets]
  | skip => exact h
  | readLine => exact h
  | write => exact h
  | closeClt =>
    obtain ⟨a, hne, hfirst, hsockets⟩ := h
    refine ⟨a, ?_, hfirst⟩
    show Function.update w.sockets _ _ = _
    rw [hsockets, Function.update_idem]
    exact Function.update_eq_self_iff.2 (by simp [only, hne])
  | @fatal _ msg hmsg =>
    cases msg with
    | noAddress => exact absurd rfl hmsg
    | _ => trivial

theorem inv_invariant {result : List (α × Attempt)} : (system result).Invariant (Inv result) where
  init w h := by
    rw [h]
    exact ⟨rfl, rfl⟩
  step w e w' h hs := inv_step h (next_cases hs)

/-- **Descriptor balance**, in every run. At `accept` the listening socket is the only open one,
bound to the first address for which `socket` and `bind` succeeded; when `main` finds none it has
closed every socket. -/
theorem descriptor_balance {result : List (α × Attempt)} {tr : List Event} {w : World α}
    (h : (system result).Run tr w) :
    (∀ lfd, w.pc = .accept lfd →
      ∃ a, firstBound result = some a ∧ w.sockets = only lfd (.listening a)) ∧
      (w.pc = .fatal .noAddress → firstBound result = none ∧ ∀ fd, w.sockets fd = none) := by
  have hI := inv_invariant.run h
  unfold Inv at hI
  constructor
  · intro lfd hpc
    rw [hpc] at hI
    obtain ⟨a, hsockets, hfirst⟩ := hI
    exact ⟨a, hfirst, hsockets⟩
  · intro hpc
    rw [hpc] at hI
    exact ⟨hI.2, fun fd => by rw [hI.1]⟩

/-- The first address cannot be bound, the second can. -/
def twoAddresses : List (ℕ × Attempt) := [(0, .bindFails), (1, .succeeds)]

/-- One `accept` fails, one connection is empty and one is answered. -/
def threeRounds : List Event :=
  [.socket (some 3), .setsockopt true, .bind, .close, .socket (some 3), .setsockopt true, .bind,
   .listen true, .accept none, .accept (some 4), .readLine 0, .close, .accept (some 4),
   .readLine 5, .write (-1), .close]

theorem descriptor_balance_threeRounds :
    ∃ w, (system twoAddresses).Run threeRounds w ∧ w.pc = .accept 3 ∧
      w.sockets = only 3 (.listening 1) := by
  obtain ⟨w, hw, hp⟩ := exists_run_of_exec ⟨.socket twoAddresses, fun _ => none⟩ next threeRounds
    (fun w => decide (w.pc = .accept 3)) (by decide)
  have hpc : w.pc = .accept 3 := of_decide_eq_true hp
  obtain ⟨a, ha, hsockets⟩ := (descriptor_balance hw).1 3 hpc
  cases ha
  exact ⟨w, hw, hpc, hsockets⟩

end LinuxDemo.TcpServerDescriptors
