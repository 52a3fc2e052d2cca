import LinuxDemo.Lib.Sync
import Mathlib.Tactic.Linarith
import Mathlib.Tactic.Ring

/-!
# The producer and the consumer of `thread/cond/main.c`

`_productFunc` adds `maxTestNumber` items to `counter`, one at a time, and signals after each;
then it stores `producerExit` and returns. `_customerFunc` sleeps while there is nothing to do,
drains `counter` in batches, and leaves when it reads `producerExit` and then `counter == 0`,
both without the mutex. Every statement is a step, and the steps of the two threads interleave in
any order; the sleeps of the program may last any time.

* `conservation`: nothing is lost or consumed twice, and the consumer returns only after the last
  item.
* `never_stuck`: the consumer is not left asleep by a producer that has returned, as long as
  `producerExit` is not stored while the consumer sleeps or has just found it `false`; nobody
  signals after that store, so otherwise it can be (`stuck_lateExit`).
-/

namespace LinuxDemo.Cond

open Lts

inductive Thread where
  | producer
  | consumer
  deriving DecidableEq

/-- What `_productFunc` executes next, in the round `i` of its loop. -/
inductive ProductPc where
  /-- `i < maxTestNumber`. -/
  | test (i : ℕ)
  | lock (i : ℕ)
  /-- `counter++` loads `counter`. -/
  | load (i : ℕ)
  /-- `counter++` stores one more than it has loaded. -/
  | store (i : ℕ) (v : ℤ)
  | unlock (i : ℕ)
  /-- `pthread_cond_signal(&cond)`. -/
  | signal (i : ℕ)
  /-- `sleep(2)`. -/
  | sleep (i : ℕ)
  /-- `producerExit = true`. -/
  | setExit
  | returned
  deriving DecidableEq

/-- What `_customerFunc` executes next. -/
inductive CustomerPc where
  | lock
  /-- `while (counter == 0)`. -/
  | testEmpty
  /-- `if (!producerExit)`. -/
  | testExit
  /-- About to call `pthread_cond_wait`. -/
  | wait
  /-- Inside `pthread_cond_wait`, asleep or woken. -/
  | condWait
  /-- `while (counter > 0)`. -/
  | testMore
  /-- `counter--` loads `counter`. -/
  | decLoad
  /-- `counter--` stores one less than it has loaded. -/
  | decStore (v : ℤ)
  | unlock
  /-- The left side of `producerExit && counter == 0`. -/
  | readExit
  /-- The right side of it. -/
  | readCounter
  /-- `sleep(3)`. -/
  | sleep
  | returned
  deriving DecidableEq

structure State where
  counter : ℤ
  producerExit : Bool
  /-- The pair `mutex`, `cond`. -/
  mon : Monitor Thread
  product : ProductPc
  customer : CustomerPc

/-- A step of `_productFunc`; a signal may also fail, after which the thread returns. -/
inductive ProductOp where
  | test
  | lock
  | load
  | store
  | unlock
  | signal (u : Option Thread)
  | signalFails
  | sleep
  | setExit
  deriving DecidableEq

inductive CustomerOp where
  | lock
  | testEmpty
  | testExit
  | wait
  /-- A wake-up that no signal asked for. -/
  | spurious
  | condReturn
  | testMore
  | decLoad
  | decStore
  | unlock
  | readExit
  | readCounter
  | sleep
  deriving DecidableEq

abbrev Op := ProductOp ⊕ CustomerOp

/-- `_productFunc`. -/
def productFunc (maxTestNumber : ℕ) (s : State) (op : ProductOp) : Option State :=
  match op, s.product with
  | .test, .test i =>
    some { s with product := if i < maxTestNumber then .lock i else .setExit }
  | .lock, .lock i => (s.mon.lock .producer).map fun m => { s with mon := m, product := .load i }
  | .load, .load i => some { s with product := .store i s.counter }
  | .store, .store i v => some { s with counter := v + 1, product := .unlock i }
  | .unlock, .unlock i => some { s with mon := s.mon.unlock, product := .signal i }
  | .signal u, .signal i => (s.mon.signal u).map fun m => { s with mon := m, product := .sleep i }
  | .signalFails, .signal _ => some { s with product := .returned }
  | .sleep, .sleep i => some { s with product := .test (i + 1) }
  | .setExit, .setExit => some { s with producerExit := true, product := .returned }
  | _, _ => none

/-- `_customerFunc`. -/
def customerFunc (s : State) (op : CustomerOp) : Option State :=
  match op, s.customer with
  | .lock, .lock => (s.mon.lock .consumer).map fun m => { s with mon := m, customer := .testEmpty }
  | .testEmpty, .testEmpty =>
    some { s with customer := if s.counter = 0 then .testExit else .testMore }
  | .testExit, .testExit =>
    some { s with customer := if s.producerExit then .testMore else .wait }
  | .wait, .wait => some { s with mon := s.mon.wait .consumer, customer := .condWait }
  | .spurious, .condWait => (s.mon.wake .consumer).map fun m => { s with mon := m }
  | .condReturn, .condWait =>
    (s.mon.relock .consumer).map fun m => { s with mon := m, customer := .testEmpty }
  | .testMore, .testMore =>
    some { s with customer := if 0 < s.counter then .decLoad else .unlock }
  | .decLoad, .decLoad => some { s with customer := .decStore s.counter }
  | .decStore, .decStore v => some { s with counter := v - 1, customer := .testMore }
  | .unlock, .unlock => some { s with mon := s.mon.unlock, customer := .readExit }
  | .readExit, .readExit =>
    some { s with customer := if s.producerExit then .readCounter else .sleep }
  | .readCounter, .readCounter =>
    some { s with customer := if s.counter = 0 then .returned else .sleep }
  | .sleep, .sleep => some { s with customer := .lock }
  | _, _ => none

def next (maxTestNumber : ℕ) (s : State) : Op → Option State
  | .inl op => productFunc maxTestNumber s op
  | .inr op => customerFunc s op

/-- The two threads just started by `main`. -/
def start : State := ⟨0, false, .fresh, .test 0, .lock⟩

/-- One `_productFunc` and one `_customerFunc`. -/
def system (maxTestNumber : ℕ) : Lts State Op := ofNext start (next maxTestNumber)

/-! ## What one step does -/

/-- Everything a step of the producer can do. -/
inductive Product (N : ℕ) (s : State) : ProductOp → State → Prop
  | testLess {i : ℕ} (h : s.product = .test i) (hi : i < N) :
      Product N s .test { s with product := .lock i }
  | testDone {i : ℕ} (h : s.product = .test i) (hi : ¬ i < N) :
      Product N s .test { s with product := .setExit }
  | lock {i : ℕ} (h : s.product = .lock i) (ho : s.mon.owner = none) :
      Product N s .lock
        { s with mon := { s.mon with owner := some .producer }, product := .load i }
  | load {i : ℕ} (h : s.product = .load i) :
      Product N s .load { s with product := .store i s.counter }
  | store {i : ℕ} {v : ℤ} (h : s.product = .store i v) :
      Product N s .store { s with counter := v + 1, product := .unlock i }
  | unlock {i : ℕ} (h : s.product = .unlock i) :
      Product N s .unlock { s with mon := { s.mon with owner := none }, product := .signal i }
  | signal {i : ℕ} {u : Option Thread} {m : Monitor Thread} (h : s.product = .signal i)
      (hm : m.owner = s.mon.owner) (hs : m.sleepers ⊆ s.mon.sleepers) :
      Product N s (.signal u) { s with mon := m, product := .sleep i }
  | signalFails {i : ℕ} (h : s.product = .signal i) :
      Product N s .signalFails { s with product := .returned }
  | sleep {i : ℕ} (h : s.product = .sleep i) :
      Product N s .sleep { s with product := .test (i + 1) }
  | setExit (h : s.product = .setExit) :
      Product N s .setExit { s with producerExit := true, product := .returned }

/-- Everything a step of the consumer can do. -/
inductive Customer (s : State) : CustomerOp → State → Prop
  | lock (h : s.customer = .lock) (ho : s.mon.owner = none) :
      Customer s .lock
        { s with mon := { s.mon with owner := some .consumer }, customer := .testEmpty }
  | testEmpty (h : s.customer = .testEmpty) :
      Customer s .testEmpty
        { s with customer := if s.counter = 0 then .testExit else .testMore }
  | testExit (h : s.customer = .testExit) :
      Customer s .testExit { s with customer := if s.producerExit then .testMore else .wait }
  | wait (h : s.customer = .wait) :
      Customer s .wait { s with mon := s.mon.wait .consumer, customer := .condWait }
  | spurious (h : s.customer = .condWait) (hs : Thread.consumer ∈ s.mon.sleepers) :
      Customer s .spurious
        { s with mon := { s.mon with sleepers := s.mon.sleepers.erase .consumer } }
  | condReturn (h : s.customer = .condWait) (ho : s.mon.owner = none) :
      Customer s .condReturn
        { s with mon := { s.mon with owner := some .consumer }, customer := .testEmpty }
  | testMore (h : s.customer = .testMore) :
      Customer s .testMore { s with customer := if 0 < s.counter then .decLoad else .unlock }
  | decLoad (h : s.customer = .decLoad) :
      Customer s .decLoad { s with customer := .decStore s.counter }
  | decStore {v : ℤ} (h : s.customer = .decStore v) :
      Customer s .decStore { s with counter := v - 1, customer := .testMore }
  | unlock (h : s.customer = .unlock) :
      Customer s .unlock { s with mon := { s.mon with owner := none }, customer := .readExit }
  | readExit (h : s.customer = .readExit) :
      Customer s .readExit { s with customer := if s.producerExit then .readCounter else .sleep }
  | readCounter (h : s.customer = .readCounter) :
      Customer s .readCounter { s with customer := if s.counter = 0 then .returned else .sleep }
  | sleep (h : s.customer = .sleep) : Customer s .sleep { s with customer := .lock }

theorem product_cases {N : ℕ} {s s' : State} {op : ProductOp}
    (h : productFunc N s op = some s') : Product N s op s' := by
  unfold productFunc at h
  split at h
  case h_1 hp =>
    cases h
    split_ifs with hi
    · exact .testLess hp hi
    · exact .testDone hp hi
  case h_2 hp =>
    obtain ⟨m, hm, rfl⟩ := Option.map_eq_some_iff.1 h
    obtain ⟨ho, rfl⟩ := Monitor.lock_eq_some.1 hm
    exact .lock hp ho
  case h_3 hp => cases h; exact .load hp
  case h_4 hp => cases h; exact .store hp
  case h_5 hp => cases h; exact .unlock hp
  case h_6 hp =>
    obtain ⟨m, hm, rfl⟩ := Option.map_eq_some_iff.1 h
    rcases Monitor.signal_eq_some.1 hm with ⟨-, -, rfl⟩ | ⟨u, -, -, rfl⟩
    · exact .signal hp rfl subset_rfl
    · exact .signal hp rfl (Finset.erase_subset _ _)
  case h_7 hp => cases h; exact .signalFails hp
  case h_8 hp => cases h; exact .sleep hp
  case h_9 hp => cases h; exact .setExit hp
  case h_10 => cases h

theorem customer_cases {s s' : State} {op : CustomerOp} (h : customerFunc s op = some s') :
    Customer s op s' := by
  unfold customerFunc at h
  split at h
  case h_1 hp =>
    obtain ⟨m, hm, rfl⟩ := Option.map_eq_some_iff.1 h
    obtain ⟨ho, rfl⟩ := Monitor.lock_eq_some.1 hm
    exact .lock hp ho
  case h_2 hp => cases h; exact .testEmpty hp
  case h_3 hp => cases h; exact .testExit hp
  case h_4 hp => cases h; exact .wait hp
  case h_5 hp =>
    obtain ⟨m, hm, rfl⟩ := Option.map_eq_some_iff.1 h
    obtain ⟨hs, rfl⟩ := Monitor.wake_eq_some.1 hm
    exact .spurious hp hs
  case h_6 hp =>
    obtain ⟨m, hm, rfl⟩ := Option.map_eq_some_iff.1 h
    obtain ⟨-, ho, rfl⟩ := Monitor.relock_eq_some.1 hm
    exact .condReturn hp ho
  case h_7 hp => cases h; exact .testMore hp
  case h_8 hp => cases h; exact .decLoad hp
  case h_9 hp => cases h; exact .decStore hp
  case h_10 hp => cases h; exact .unlock hp
  case h_11 hp => cases h; exact .readExit hp
  case h_12 hp => cases h; exact .readCounter hp
  case h_13 hp => cases h; exact .sleep hp
  case h_14 => cases h

/-! ## The invariant of the two threads -/

/-- The statements of `_productFunc` executed with the mutex held. -/
def ProductPc.holds : ProductPc → Bool
  | .load _ | .store _ _ | .unlock _ => true
  | _ => false

/-- The statements of `_customerFunc` executed with the mutex held. -/
def CustomerPc.holds : CustomerPc → Bool
  | .testEmpty | .testExit | .wait | .testMore | .decLoad | .decStore _ | .unlock => true
  | _ => false

/-- What the consumer knows from its last test or load. -/
def CustomerPc.Knows (counter : ℤ) (producerExit : Bool) : CustomerPc → Prop
  | .decLoad => 0 < counter
  | .decStore v => v = counter ∧ 0 < counter
  | .readCounter => producerExit = true
  | .returned => producerExit = true ∧ counter = 0
  | _ => True

/-- The mutex protects the loaded values; `producerExit` is stored last. -/
structure Inv (s : State) : Prop where
  producer : s.product.holds = true ↔ s.mon.owner = some .producer
  consumer : s.customer.holds = true ↔ s.mon.owner = some .consumer
  loaded : ∀ i v, s.product = .store i v → v = s.counter
  knows : s.customer.Knows s.counter s.producerExit
  nonneg : 0 ≤ s.counter
  exit : s.producerExit = true → s.product = .returned

theorem inv_start : Inv start where
  producer := by simp [start, ProductPc.holds, Monitor.fresh]
  consumer := by simp [start, CustomerPc.holds, Monitor.fresh]
  loaded i v h := by cases h
  knows := trivial
  nonneg := le_rfl
  exit h := by cases h

/-- Outside the mutex, and before `producerExit`, the consumer knows nothing. -/
theorem CustomerPc.knows_of_not_holds {pc : CustomerPc} {c : ℤ} (hh : pc.holds = false)
    (hk : pc.Knows c false) (c' : ℤ) (e : Bool) : pc.Knows c' e := by
  cases pc <;> simp_all [CustomerPc.holds, CustomerPc.Knows]

/-- The store of `producerExit` takes nothing from what the consumer knows. -/
theorem CustomerPc.knows_setExit {pc : CustomerPc} {c : ℤ} (hk : pc.Knows c false) :
    pc.Knows c true := by
  cases pc <;> simp_all [CustomerPc.Knows]

theorem Product.not_returned {N : ℕ} {s s' : State} {op : ProductOp} (hs : Product N s op s') :
    s.product ≠ .returned := by
  cases hs <;> simp_all

theorem inv_product {N : ℕ} {s s' : State} {op : ProductOp} (h : Inv s)
    (hs : Product N s op s') : Inv s' := by
  obtain ⟨hp, hc, hl, hk, hn, he⟩ := h
  have hexit : s.producerExit = false := Bool.eq_false_iff.2 fun hx => hs.not_returned (he hx)
  have hno : ∀ q : ProductPc, s.producerExit = true → q = .returned := by simp [hexit]
  rw [hexit] at hk
  cases hs with
  | testLess h _ | testDone h _ | signalFails h | sleep h =>
    exact ⟨by simpa [h, ProductPc.holds] using hp, hc, by simp,
      hexit ▸ hk, hn, hno _⟩
  | signal h hm _ =>
    exact ⟨by simpa [h, hm, ProductPc.holds] using hp, by simpa [hm] using hc,
      by simp, hexit ▸ hk, hn, hno _⟩
  | lock h ho =>
    exact ⟨by simp [ProductPc.holds], by simpa [ho] using hc, by simp,
      hexit ▸ hk, hn, hno _⟩
  | load h =>
    refine ⟨by simpa [h, ProductPc.holds] using hp, hc, ?_, hexit ▸ hk, hn, hno _⟩
    intro _ _ hq
    cases hq
    rfl
  | @store i v h =>
    -- The producer holds the mutex, so the consumer is not between its load and its store.
    have hown : s.mon.owner = some .producer := hp.1 (by simp [h, ProductPc.holds])
    have hout : s.customer.holds = false :=
      Bool.eq_false_iff.2 fun hh => by simp [hown] at hc; simp [hc] at hh
    refine ⟨by simpa [h, ProductPc.holds] using hp, hc, by simp,
      CustomerPc.knows_of_not_holds hout hk _ _, ?_, hno _⟩
    have := hl i v h
    show 0 ≤ v + 1
    omega
  | unlock h =>
    have hown : s.mon.owner = some .producer := hp.1 (by simp [h, ProductPc.holds])
    exact ⟨by simp [ProductPc.holds], by simpa [hown] using hc, by simp,
      hexit ▸ hk, hn, hno _⟩
  | setExit h =>
    exact ⟨by simpa [h, ProductPc.holds] using hp, hc, by simp,
      CustomerPc.knows_setExit hk, hn, fun _ => rfl⟩

theorem inv_customer {s s' : State} {op : CustomerOp} (h : Inv s) (hs : Customer s op s') :
    Inv s' := by
  obtain ⟨hp, hc, hl, hk, hn, he⟩ := h
  -- While the consumer holds the mutex the producer does not.
  have hout : s.customer.holds = true → s.product.holds = false := by
    intro hh
    rw [hc.1 hh] at hp
    simpa using hp
  cases hs with
  | lock h ho | condReturn h ho =>
    exact ⟨by simpa [ho] using hp, by simp [CustomerPc.holds], hl, trivial, hn, he⟩
  | testEmpty h =>
    refine ⟨hp, ?_, hl, ?_, hn, he⟩ <;> dsimp only <;> split_ifs <;>
      first | trivial | simpa [h, CustomerPc.holds] using hc
  | testExit h =>
    refine ⟨hp, ?_, hl, ?_, hn, he⟩ <;> dsimp only <;> split_ifs <;>
      first | trivial | simpa [h, CustomerPc.holds] using hc
  | wait h =>
    have hown : s.mon.owner = some .consumer := hc.1 (by simp [h, CustomerPc.holds])
    exact ⟨by simpa [Monitor.wait, hown] using hp, by simp [Monitor.wait, CustomerPc.holds], hl,
      trivial, hn, he⟩
  | spurious h _ => exact ⟨hp, hc, hl, hk, hn, he⟩
  | testMore h =>
    refine ⟨hp, ?_, hl, ?_, hn, he⟩ <;> dsimp only <;> split_ifs with hpos
    · simpa [h, CustomerPc.holds] using hc
    · simpa [h, CustomerPc.holds] using hc
    · exact hpos
    · trivial
  | decLoad h =>
    rw [h] at hk
    exact ⟨hp, by simpa [h, CustomerPc.holds] using hc, hl, ⟨rfl, hk⟩, hn, he⟩
  | @decStore v h =>
    rw [h] at hk
    obtain ⟨rfl, hpos⟩ := hk
    refine ⟨hp, by simpa [h, CustomerPc.holds] using hc, ?_, trivial, ?_, he⟩
    · intro i w hw
      have := hout (by simp [h, CustomerPc.holds])
      simp [show s.product = .store i w from hw, ProductPc.holds] at this
    · show 0 ≤ s.counter - 1
      omega
  | unlock h =>
    have hown : s.mon.owner = some .consumer := hc.1 (by simp [h, CustomerPc.holds])
    exact ⟨by simpa [hown] using hp, by simp [CustomerPc.holds], hl, trivial, hn, he⟩
  | readExit h =>
    refine ⟨hp, ?_, hl, ?_, hn, he⟩ <;> dsimp only <;> split_ifs with hx
    · simpa [h, CustomerPc.holds] using hc
    · simpa [h, CustomerPc.holds] using hc
    · exact hx
    · trivial
  | readCounter h =>
    rw [h] at hk
    refine ⟨hp, ?_, hl, ?_, hn, he⟩ <;> dsimp only <;> split_ifs with hz
    · simpa [h, CustomerPc.holds] using hc
    · simpa [h, CustomerPc.holds] using hc
    · exact ⟨hk, hz⟩
    · trivial
  | sleep h => exact ⟨hp, by simpa [h, CustomerPc.holds] using hc, hl, trivial, hn, he⟩

theorem inv_invariant (N : ℕ) : (system N).Invariant Inv where
  init s h := by rw [h]; exact inv_start
  step s e s' h hs := by
    cases e with
    | inl op => exact inv_product h (product_cases hs)
    | inr op => exact inv_customer h (customer_cases hs)

/-! ## Conservation -/

/-- Items produced: completed `counter++`. -/
def produced (tr : List Op) : ℕ := tr.countP fun e => e = .inl .store

/-- Items exhausted: completed `counter--`. -/
def exhausted (tr : List Op) : ℕ := tr.countP fun e => e = .inr .decStore

/-- Every call of `pthread_cond_signal` succeeds. -/
def SignalsSucceed (_ : State) (e : Op) : Prop := e ≠ .inl .signalFails

instance (s : State) (e : Op) : Decidable (SignalsSucceed s e) :=
  inferInstanceAs (Decidable (_ ≠ _))

/-- The items a producer with `N` to make has made when it stands at a statement. -/
def ProductPc.made (N : ℕ) : ProductPc → ℕ
  | .test i | .lock i | .load i | .store i _ => i
  | .unlock i | .signal i | .sleep i => i + 1
  | .setExit | .returned => N

/-- The rounds a producer with `N` items to make can be in. -/
def ProductPc.InRange (N : ℕ) : ProductPc → Prop
  | .test i => i ≤ N
  | .lock i | .load i | .store i _ | .unlock i | .signal i | .sleep i => i < N
  | .setExit | .returned => True

/-- The history agrees with the state: what was produced and not exhausted is in `counter`, and
the producer has made as many items as its round says. -/
structure Counted (N : ℕ) (tr : List Op) (s : State) : Prop where
  balance : s.counter + exhausted tr = produced tr
  made : produced tr = s.product.made N
  inRange : s.product.InRange N

theorem counted_product {N : ℕ} {tr : List Op} {s s' : State} {op : ProductOp} (hinv : Inv s)
    (h : Counted N tr s) (hs : Product N s op s') (hG : SignalsSucceed s (.inl op)) :
    Counted N (tr ++ [.inl op]) s' := by
  obtain ⟨hb, hm, hr⟩ := h
  have hex : exhausted (tr ++ [.inl op]) = exhausted tr := by
    simp [exhausted, List.countP_append]
  have hpr : op ≠ .store → produced (tr ++ [.inl op]) = produced tr := by
    intro hne
    simp [produced, List.countP_append, hne]
  cases hs with
  | testLess h hi | lock h _ | load h | unlock h | signal h _ _ =>
    rw [h] at hm hr
    refine ⟨?_, ?_, ?_⟩
    · rw [hex, hpr (by simp)]; exact hb
    · rw [hpr (by simp)]; exact hm
    · first | exact hi | exact hr
  | testDone h hi =>
    rw [h] at hm hr
    refine ⟨by rw [hex, hpr (by simp)]; exact hb, ?_, trivial⟩
    rw [hpr (by simp), hm]
    exact Nat.le_antisymm hr (Nat.le_of_not_lt hi)
  | @store i v h =>
    obtain rfl := hinv.loaded i v h
    rw [h] at hm hr
    have hone : produced (tr ++ [.inl .store]) = produced tr + 1 := by
      simp [produced, List.countP_append]
    refine ⟨?_, ?_, hr⟩
    · rw [hex, hone]
      push_cast
      linarith
    · rw [hone, hm]
      rfl
  | signalFails h => exact absurd rfl hG
  | sleep h =>
    rw [h] at hm hr
    exact ⟨by rw [hex, hpr (by simp)]; exact hb, by rw [hpr (by simp)]; exact hm, hr⟩
  | setExit h =>
    rw [h] at hm
    exact ⟨by rw [hex, hpr (by simp)]; exact hb, by rw [hpr (by simp)]; exact hm, trivial⟩

theorem counted_customer {N : ℕ} {tr : List Op} {s s' : State} {op : CustomerOp} (hinv : Inv s)
    (h : Counted N tr s) (hs : Customer s op s') : Counted N (tr ++ [.inr op]) s' := by
  obtain ⟨hb, hm, hr⟩ := h
  have hpr : produced (tr ++ [.inr op]) = produced tr := by
    simp [produced, List.countP_append]
  have hprod : s'.product = s.product := by cases hs <;> rfl
  refine ⟨?_, by rw [hpr, hprod]; exact hm, by rw [hprod]; exact hr⟩
  rw [hpr, ← hb]
  by_cases hop : op = .decStore
  · subst hop
    cases hs with
    | @decStore v h =>
      have hk := hinv.knows
      rw [h] at hk
      obtain ⟨rfl, -⟩ := hk
      have hone : exhausted (tr ++ [.inr .decStore]) = exhausted tr + 1 := by
        simp [exhausted, List.countP_append]
      rw [hone]
      push_cast
      ring
  · have hsame : exhausted (tr ++ [.inr op]) = exhausted tr := by
      simp [exhausted, List.countP_append, hop]
    have hcount : s'.counter = s.counter := by
      cases hs <;> first | rfl | exact absurd rfl hop
    rw [hsame, hcount]

theorem counted_run {N : ℕ} {tr : List Op} {s : State}
    (h : ((system N).guard SignalsSucceed).Run tr s) : Inv s ∧ Counted N tr s := by
  refine Run.induct (I := fun tr s => Inv s ∧ Counted N tr s) ?_ ?_ h
  · rintro s rfl
    exact ⟨inv_start, rfl, rfl, Nat.zero_le N⟩
  · rintro tr s e s' ⟨hinv, hc⟩ ⟨hs, hG⟩
    refine ⟨(inv_invariant N).step s e s' hinv hs, ?_⟩
    cases e with
    | inl op => exact counted_product hinv hc (product_cases hs) hG
    | inr op => exact counted_customer hinv hc (customer_cases hs)

theorem ProductPc.made_le {N : ℕ} {pc : ProductPc} (h : pc.InRange N) : pc.made N ≤ N := by
  cases pc <;> simp only [ProductPc.InRange] at h <;> simp only [ProductPc.made] <;> omega

/-- **Conservation.** While the mutex is free, what was produced and not exhausted is in
`counter`. The consumer returns only after the producer has made all its items, and has then
exhausted all of them. -/
theorem conservation {N : ℕ} {tr : List Op} {s : State}
    (h : ((system N).guard SignalsSucceed).Run tr s) :
    (s.mon.owner = none →
      0 ≤ s.counter ∧ s.counter + exhausted tr = produced tr ∧ produced tr ≤ N) ∧
    (s.customer = .returned →
      s.product = .returned ∧ produced tr = N ∧ exhausted tr = N ∧ s.counter = 0) := by
  obtain ⟨hinv, hb, hm, hr⟩ := counted_run h
  refine ⟨fun _ => ⟨hinv.nonneg, hb, hm ▸ ProductPc.made_le hr⟩, ?_⟩
  intro hret
  have hk := hinv.knows
  rw [hret] at hk
  obtain ⟨hexit, hzero⟩ := hk
  have hprod := hinv.exit hexit
  have hN : produced tr = N := by
    rw [hm, hprod]
    rfl
  refine ⟨hprod, hN, ?_, hzero⟩
  have : (exhausted tr : ℤ) = produced tr := by rw [← hb, hzero, zero_add]
  exact_mod_cast this.trans (congrArg _ hN)

/-- One item is made and consumed, and both threads return. -/
def oneItem : List Op :=
  [.inl .test, .inl .lock, .inl .load, .inl .store, .inl .unlock, .inr .lock,
   .inl (.signal none), .inl .sleep, .inl .test, .inr .testEmpty, .inl .setExit, .inr .testMore,
   .inr .decLoad, .inr .decStore, .inr .testMore, .inr .unlock, .inr .readExit, .inr .readCounter]

theorem conservation_oneItem :
    ∃ s, ((system 1).guard SignalsSucceed).Run oneItem s ∧ s.customer = .returned ∧
      exhausted oneItem = 1 ∧ s.counter = 0 := by
  obtain ⟨s, hs, hp⟩ := exists_guard_run_of_exec (next 1) (G := SignalsSucceed) (fun _ _ h => h)
    (.init (rfl : start = start)) oneItem (fun s => s.customer = .returned) (by decide)
  have hret : s.customer = .returned := by simpa using hp
  obtain ⟨-, -, hex, hzero⟩ := (conservation hs).2 hret
  exact ⟨s, hs, hret, hex, hzero⟩

/-! ## The end of the consumer -/

/-- The producer has returned, and the consumer is asleep in `pthread_cond_wait`: nobody is left
to wake it. -/
def Stuck (s : State) : Prop :=
  s.product = .returned ∧ s.customer = .condWait ∧ Thread.consumer ∈ s.mon.sleepers

/-- One round of the producer's loop while nobody sleeps. -/
def round : List Op :=
  [.inl .test, .inl .lock, .inl .load, .inl .store, .inl .unlock, .inl (.signal none), .inl .sleep]

/-- The producer makes its ten items; the consumer drains them, finds `producerExit` not yet
stored, and goes to sleep; then the producer stores it and returns. -/
def lateExit : List Op :=
  (List.replicate 10 round).flatten ++ [.inl .test, .inr .lock, .inr .testEmpty, .inr .testMore] ++
    (List.replicate 10 [.inr .decLoad, .inr .decStore, .inr .testMore]).flatten ++
    [.inr .unlock, .inr .readExit, .inr .sleep, .inr .lock, .inr .testEmpty, .inr .testExit,
     .inr .wait, .inl .setExit]

/-- **The consumer can be left asleep**, with the number of items `main` passes. -/
theorem stuck_lateExit : ∃ s, (system 10).Reachable s ∧ Stuck s := by
  obtain ⟨s, hs, hp⟩ := exists_run_of_exec start (next 10) lateExit
    (fun s => s.product = .returned ∧ s.customer = .condWait ∧
      Thread.consumer ∈ s.mon.sleepers) (by decide)
  exact ⟨s, ⟨_, hs⟩, by simpa [Stuck] using hp⟩

/-- The conditions on the producer: its signals succeed, and it does not store `producerExit`
while the consumer is asleep or has tested `producerExit` and is about to sleep. -/
def ExitSeen (s : State) (e : Op) : Prop :=
  e ≠ .inl .signalFails ∧
    (e = .inl .setExit → s.customer ≠ .wait ∧ Thread.consumer ∉ s.mon.sleepers)

instance (s : State) (e : Op) : Decidable (ExitSeen s e) :=
  inferInstanceAs (Decidable (_ ∧ _))

/-- A producer that returned has stored `producerExit`, and then the consumer does not sleep. -/
structure Woken (s : State) : Prop where
  stored : s.product = .returned → s.producerExit = true
  awake : s.producerExit = true → s.customer ≠ .wait ∧ Thread.consumer ∉ s.mon.sleepers

theorem woken_product {N : ℕ} {s s' : State} {op : ProductOp} (h : Woken s)
    (hs : Product N s op s') (hG : ExitSeen s (.inl op)) : Woken s' := by
  obtain ⟨hst, haw⟩ := h
  cases hs with
  | signal h _ hsub =>
    exact ⟨nofun, fun hx => ⟨(haw hx).1, fun hm => (haw hx).2 (hsub hm)⟩⟩
  | signalFails h => exact absurd rfl hG.1
  | setExit h => exact ⟨fun _ => rfl, fun _ => hG.2 rfl⟩
  | _ => exact ⟨nofun, haw⟩

theorem woken_customer {s s' : State} {op : CustomerOp} (h : Woken s) (hs : Customer s op s') :
    Woken s' := by
  obtain ⟨hst, haw⟩ := h
  cases hs with
  | testExit h =>
    refine ⟨hst, fun hx => ⟨?_, (haw hx).2⟩⟩
    have hx : s.producerExit = true := hx
    simp [hx]
  | wait h => exact ⟨hst, fun hx => absurd h (haw hx).1⟩
  | spurious h _ =>
    exact ⟨hst, fun hx => ⟨(haw hx).1, fun hm => (haw hx).2 (Finset.mem_of_mem_erase hm)⟩⟩
  | testEmpty h | testMore h | readExit h | readCounter h =>
    refine ⟨hst, fun hx => ⟨?_, (haw hx).2⟩⟩
    dsimp only
    split_ifs <;> simp
  | _ => exact ⟨hst, fun hx => ⟨by simp, (haw hx).2⟩⟩

theorem woken_invariant (N : ℕ) : ((system N).guard ExitSeen).Invariant Woken where
  init s h := by
    rw [h]
    exact ⟨nofun, nofun⟩
  step s e s' h hs := by
    cases e with
    | inl op => exact woken_product h (product_cases hs.1) hs.2
    | inr op => exact woken_customer h (customer_cases hs.1)

/-- **The consumer is not left asleep**, in every run that meets the conditions. -/
theorem never_stuck {N : ℕ} {tr : List Op} {s : State}
    (h : ((system N).guard ExitSeen).Run tr s) : ¬ Stuck s := by
  rintro ⟨hret, -, hsleep⟩
  have hw := (woken_invariant N).run h
  exact (hw.awake (hw.stored hret)).2 hsleep

theorem never_stuck_oneItem :
    ∃ s, ((system 1).guard ExitSeen).Run oneItem s ∧ s.product = .returned ∧ ¬ Stuck s := by
  obtain ⟨s, hs, hp⟩ := exists_guard_run_of_exec (next 1) (G := ExitSeen) (fun _ _ h => h)
    (.init (rfl : start = start)) oneItem (fun s => s.product = .returned) (by decide)
  exact ⟨s, hs, by simpa using hp, never_stuck hs⟩

end LinuxDemo.Cond
