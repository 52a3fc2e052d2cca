import Mathlib.Algebra.BigOperators.Group.Finset.Basic
import Mathlib.Algebra.Order.BigOperators.Group.Finset
import Mathlib.Data.Fintype.BigOperators
import Mathlib.Data.List.Perm.Basic
import Mathlib.Logic.Relation

/-!
# Depth-first walks

A walk visits items one after the other, and an item that it goes into puts its own items in front
of those that are still to be visited. Some items lead to a *node*, and a node is visited once only,
however many items lead to it; so the walk ends also where the nodes form cycles.

**Failures.** A walk gives up at an item that it cannot look at, or at a node that it cannot go
into. It is *complete* when it has not given up.

* `run_isSome`: a walk ends, within the number of items that there are.
* `Visits.nodup`: no node is visited twice.
* `Visits.reaches`: every visited item is reached from an item of the start.
* `Visits.failed`: a walk that gives up has come to an item where it had to.
* `Visits.isPrefix`: it has visited a beginning of what it visits without the failures.
* `Visits.perm`: the items without a node that a complete walk visits are those of the start and of
  the visited items, each as often as it is there.
* `Visits.mem_iff`: where the nodes behind an item depend on its node only, the nodes that a
  complete walk visits are all that can be reached.
-/

namespace LinuxDemo

/-- Items of type `α` that lead to nodes of type `ι`. -/
structure Walk (α ι : Type*) where
  node : α → Option ι
  /-- The walk gives up when it looks at the item. -/
  stops : α → Bool
  /-- It gives up when it goes into the node of the item. -/
  shut : α → Bool
  /-- The items to visit after an item was visited. -/
  expand : α → List α
  leaf : ∀ a, node a = none → expand a = []

namespace Walk

variable {α ι : Type*} (W : Walk α ι)

/-- One item is behind another. -/
def Behind (a b : α) : Prop := b ∈ W.expand a

def Reaches : α → α → Prop := Relation.ReflTransGen W.Behind

/-- The nodes of some items. -/
def nodes (items : List α) : List ι := items.filterMap W.node

/-- The items that lead to no node. -/
def leaves (items : List α) : List α := items.filter fun a => (W.node a).isNone

variable {W}

theorem nodes_cons_none {a : α} (h : W.node a = none) (items : List α) :
    W.nodes (a :: items) = W.nodes items :=
  List.filterMap_cons_none h

theorem nodes_cons_some {a : α} {i : ι} (h : W.node a = some i) (items : List α) :
    W.nodes (a :: items) = i :: W.nodes items :=
  List.filterMap_cons_some h

theorem leaves_cons_none {a : α} (h : W.node a = none) (items : List α) :
    W.leaves (a :: items) = a :: W.leaves items := by
  rw [leaves, List.filter_cons, h]
  rfl

theorem leaves_cons_some {a : α} {i : ι} (h : W.node a = some i) (items : List α) :
    W.leaves (a :: items) = W.leaves items := by
  rw [leaves, List.filter_cons, h]
  rfl

variable (W) [DecidableEq ι]

/-- Visit the items `todo`, where the nodes `seen` were visited before; at most `fuel` items are
looked at. The result is the visited items in order, and whether the walk is complete. -/
def run : ℕ → List α → Finset ι → Option (List α × Bool)
  | _, [], _ => some ([], true)
  | 0, _ :: _, _ => none
  | fuel + 1, a :: todo, seen =>
    if W.stops a then some ([], false)
    else
      match W.node a with
      | none => (run fuel todo seen).map fun r => (a :: r.1, r.2)
      | some i =>
        if i ∈ seen then run fuel todo seen
        else if W.shut a then some ([], false)
        else (run fuel (W.expand a ++ todo) (insert i seen)).map fun r => (a :: r.1, r.2)

/-- The walks, one constructor for every kind of item. -/
inductive Visits : List α → Finset ι → List α → Bool → Prop
  | nil (seen : Finset ι) : Visits [] seen [] true
  | stop {a : α} {todo : List α} {seen : Finset ι} (h : W.stops a = true) :
      Visits (a :: todo) seen [] false
  | leaf {a : α} {todo out : List α} {seen : Finset ι} {c : Bool} (h : W.node a = none)
      (hrest : Visits todo seen out c) : Visits (a :: todo) seen (a :: out) c
  | again {a : α} {i : ι} {todo out : List α} {seen : Finset ι} {c : Bool} (h : W.node a = some i)
      (hi : i ∈ seen) (hrest : Visits todo seen out c) : Visits (a :: todo) seen out c
  | shut {a : α} {todo : List α} {seen : Finset ι} (h : W.shut a = true) :
      Visits (a :: todo) seen [] false
  | enter {a : α} {i : ι} {todo out : List α} {seen : Finset ι} {c : Bool} (h : W.node a = some i)
      (hi : i ∉ seen) (hrest : Visits (W.expand a ++ todo) (insert i seen) out c) :
      Visits (a :: todo) seen (a :: out) c

variable {W}

theorem visits_of_run {fuel : ℕ} {todo out : List α} {seen : Finset ι} {c : Bool}
    (h : W.run fuel todo seen = some (out, c)) : W.Visits todo seen out c := by
  induction fuel generalizing todo seen out with
  | zero =>
    cases todo with
    | nil =>
      cases h
      exact .nil seen
    | cons a todo => cases h
  | succ fuel ih =>
    cases todo with
    | nil =>
      cases h
      exact .nil seen
    | cons a todo =>
      rw [run] at h
      split at h
      · next hstop =>
        cases h
        exact .stop hstop
      · split at h
        · next hnode =>
          obtain ⟨⟨out, c⟩, hout, he⟩ := Option.map_eq_some_iff.1 h
          cases he
          exact .leaf hnode (ih hout)
        · next i hnode =>
          split_ifs at h with hi hshut
          · exact .again hnode hi (ih h)
          · cases h
            exact .shut hshut
          · obtain ⟨⟨out, c⟩, hout, he⟩ := Option.map_eq_some_iff.1 h
            cases he
            exact .enter hnode hi (ih hout)

/-- **A walk ends.** Where at most `width i` items are behind the node `i`, it looks at every item
of the start and of the nodes not seen before. -/
theorem run_isSome [Fintype ι] (width : ι → ℕ)
    (hwidth : ∀ a i, W.node a = some i → (W.expand a).length ≤ width i) {fuel : ℕ} {todo : List α}
    {seen : Finset ι} (h : todo.length + ∑ i ∈ seenᶜ, width i ≤ fuel) :
    (W.run fuel todo seen).isSome := by
  induction fuel generalizing todo seen with
  | zero =>
    have hnil : todo = [] := List.eq_nil_of_length_eq_zero (by omega)
    rw [hnil, run]
    rfl
  | succ fuel ih =>
    cases todo with
    | nil => rfl
    | cons a todo =>
      rw [List.length_cons] at h
      rw [run]
      split
      · rfl
      · split
        · rw [Option.isSome_map]
          exact ih (by omega)
        · next i hnode =>
          split_ifs with hi
          · exact ih (by omega)
          · rfl
          · rw [Option.isSome_map]
            apply ih
            have hle := hwidth a i hnode
            have hsum : ∑ j ∈ (insert i seen)ᶜ, width j + width i = ∑ j ∈ seenᶜ, width j := by
              rw [Finset.compl_insert]
              exact Finset.sum_erase_add _ _ (Finset.mem_compl.2 hi)
            rw [List.length_append]
            omega

/-- **Nothing is visited twice.** -/
theorem Visits.nodup {todo out : List α} {seen : Finset ι} {c : Bool}
    (h : W.Visits todo seen out c) : (W.nodes out).Nodup ∧ ∀ i ∈ W.nodes out, i ∉ seen := by
  induction h with
  | nil | stop | shut => exact ⟨List.nodup_nil, by simp [nodes]⟩
  | leaf hnode _ ih =>
    rw [nodes_cons_none hnode]
    exact ih
  | again _ _ _ ih => exact ih
  | @enter a i todo out seen c hnode hi _ ih =>
    obtain ⟨hnodup, hnew⟩ := ih
    rw [nodes_cons_some hnode]
    refine ⟨List.nodup_cons.2 ⟨fun hmem => hnew i hmem (Finset.mem_insert_self i seen), hnodup⟩, ?_⟩
    intro j hj
    rcases List.mem_cons.1 hj with rfl | hj
    · exact hi
    · exact fun hseen => hnew j hj (Finset.mem_insert_of_mem hseen)

/-- **Nothing is made up.** -/
theorem Visits.reaches {todo out : List α} {seen : Finset ι} {c : Bool}
    (h : W.Visits todo seen out c) : ∀ b ∈ out, ∃ a ∈ todo, W.Reaches a b := by
  induction h with
  | nil | stop | shut => simp
  | @leaf a _ _ _ _ _ _ ih =>
    intro b hb
    rcases List.mem_cons.1 hb with rfl | hb
    · exact ⟨b, List.mem_cons_self, .refl⟩
    · obtain ⟨d, hd, hreach⟩ := ih b hb
      exact ⟨d, List.mem_cons_of_mem a hd, hreach⟩
  | @again a _ _ _ _ _ _ _ _ ih =>
    intro b hb
    obtain ⟨d, hd, hreach⟩ := ih b hb
    exact ⟨d, List.mem_cons_of_mem a hd, hreach⟩
  | @enter a _ _ _ _ _ _ _ _ ih =>
    intro b hb
    rcases List.mem_cons.1 hb with rfl | hb
    · exact ⟨b, List.mem_cons_self, .refl⟩
    · obtain ⟨d, hd, hreach⟩ := ih b hb
      rcases List.mem_append.1 hd with hd | hd
      · exact ⟨a, List.mem_cons_self, .head hd hreach⟩
      · exact ⟨d, List.mem_cons_of_mem a hd, hreach⟩

/-- **A walk gives up only where it has to**, at an item of the start or behind a visited one. -/
theorem Visits.failed {todo out : List α} {seen : Finset ι} (h : W.Visits todo seen out false) :
    ∃ b, (b ∈ todo ∨ ∃ a ∈ out, W.Behind a b) ∧ (W.stops b = true ∨ W.shut b = true) := by
  generalize hc : false = c at h
  induction h with
  | nil => cases hc
  | @stop a _ _ h => exact ⟨a, Or.inl List.mem_cons_self, Or.inl h⟩
  | @shut a _ _ h => exact ⟨a, Or.inl List.mem_cons_self, Or.inr h⟩
  | leaf _ _ ih =>
    obtain ⟨b, hb | ⟨d, hd, hbehind⟩, hfails⟩ := ih hc
    · exact ⟨b, Or.inl (List.mem_cons_of_mem _ hb), hfails⟩
    · exact ⟨b, Or.inr ⟨d, List.mem_cons_of_mem _ hd, hbehind⟩, hfails⟩
  | again _ _ _ ih =>
    obtain ⟨b, hb, hfails⟩ := ih hc
    exact ⟨b, hb.imp (List.mem_cons_of_mem _) id, hfails⟩
  | @enter a _ _ _ _ _ _ _ _ ih =>
    obtain ⟨b, hb | ⟨d, hd, hbehind⟩, hfails⟩ := ih hc
    · rcases List.mem_append.1 hb with hb | hb
      · exact ⟨b, Or.inr ⟨a, List.mem_cons_self, hb⟩, hfails⟩
      · exact ⟨b, Or.inl (List.mem_cons_of_mem a hb), hfails⟩
    · exact ⟨b, Or.inr ⟨d, List.mem_cons_of_mem a hd, hbehind⟩, hfails⟩

/-- The same walk, without failures. -/
def whole (W : Walk α ι) : Walk α ι := { W with stops := fun _ => false, shut := fun _ => false }

/-- A walk without failures is complete. -/
theorem Visits.complete {todo out : List α} {seen : Finset ι} {c : Bool}
    (h : W.whole.Visits todo seen out c) : c = true := by
  by_contra hc
  rw [Bool.not_eq_true] at hc
  subst hc
  obtain ⟨b, -, hfails⟩ := h.failed
  rcases hfails with hfails | hfails <;> cases hfails

/-- **What a walk has visited when it gives up** is a beginning of the walk without failures. -/
theorem Visits.isPrefix {todo out all : List α} {seen : Finset ι} {c d : Bool}
    (h : W.Visits todo seen out c) (hall : W.whole.Visits todo seen all d) :
    out <+: all ∧ (c = true → out = all) := by
  induction h generalizing all with
  | nil =>
    cases hall
    exact ⟨List.prefix_rfl, fun _ => rfl⟩
  | stop | shut => exact ⟨List.nil_prefix, fun hc => by cases hc⟩
  | @leaf a todo out seen c hnode _ ih =>
    have hsame : W.whole.node a = none := hnode
    cases hall with
    | stop h | shut h => cases h
    | leaf _ hrest =>
      obtain ⟨hbegin, heq⟩ := ih hrest
      exact ⟨(List.prefix_cons_inj a).2 hbegin, fun hc => by rw [heq hc]⟩
    | again h | enter h => cases hsame.symm.trans h
  | @again a i todo out seen c hnode hi _ ih =>
    have hsame : W.whole.node a = some i := hnode
    cases hall with
    | stop h | shut h => cases h
    | leaf h => cases hsame.symm.trans h
    | again _ _ hrest => exact ih hrest
    | enter h hi' =>
      cases hsame.symm.trans h
      exact absurd hi hi'
  | @enter a i todo out seen c hnode hi _ ih =>
    have hsame : W.whole.node a = some i := hnode
    cases hall with
    | stop h | shut h => cases h
    | leaf h => cases hsame.symm.trans h
    | again h hi' =>
      cases hsame.symm.trans h
      exact absurd hi' hi
    | enter h _ hrest =>
      cases hsame.symm.trans h
      obtain ⟨hbegin, heq⟩ := ih hrest
      exact ⟨(List.prefix_cons_inj a).2 hbegin, fun hc => by rw [heq hc]⟩

/-- **The leaves are visited one by one**, those of the start and those behind the visited items. -/
theorem Visits.perm {todo out : List α} {seen : Finset ι} (h : W.Visits todo seen out true) :
    (W.leaves out).Perm (W.leaves (todo ++ out.flatMap W.expand)) := by
  generalize hc : true = c at h
  induction h with
  | nil => exact .refl _
  | stop | shut => cases hc
  | @leaf a todo out seen _ hnode _ ih =>
    rw [List.flatMap_cons, W.leaf a hnode, List.nil_append, List.cons_append,
      leaves_cons_none hnode, leaves_cons_none hnode]
    exact (ih hc).cons a
  | @again a i todo out seen _ hnode _ _ ih =>
    rw [List.cons_append, leaves_cons_some hnode]
    exact ih hc
  | @enter a i todo out seen _ hnode _ _ ih =>
    rw [List.flatMap_cons, List.cons_append, leaves_cons_some hnode, leaves_cons_some hnode]
    have hswap : (W.expand a ++ todo ++ out.flatMap W.expand).Perm
        (todo ++ (W.expand a ++ out.flatMap W.expand)) := by
      rw [List.append_assoc]
      exact List.perm_append_comm_assoc _ _ _
    exact (ih hc).trans (hswap.filter _)

/-- The node of an item, if it has one, was visited or seen before. -/
def Covered (W : Walk α ι) (seen : Finset ι) (out : List α) (a : α) : Prop :=
  ∀ i, W.node a = some i → i ∈ seen ∨ i ∈ W.nodes out

/-- A node that a complete walk comes to is visited, unless it was seen before. -/
theorem Visits.covered {todo out : List α} {seen : Finset ι} (h : W.Visits todo seen out true) :
    (∀ a ∈ todo, W.Covered seen out a) ∧
      ∀ a ∈ out, ∀ b ∈ W.expand a, W.Covered seen out b := by
  generalize hc : true = c at h
  induction h with
  | nil => simp
  | stop | shut => cases hc
  | @leaf a todo out seen _ hnode _ ih =>
    replace ih := ih hc
    have hmono : ∀ b, W.Covered seen out b → W.Covered seen (a :: out) b := by
      intro b hb i hi
      rw [nodes_cons_none hnode]
      exact hb i hi
    refine ⟨fun b hb => ?_, fun b hb c hc => ?_⟩
    · rcases List.mem_cons.1 hb with rfl | hb
      · intro i hi
        rw [hnode] at hi
        cases hi
      · exact hmono b (ih.1 b hb)
    · rcases List.mem_cons.1 hb with rfl | hb
      · rw [W.leaf b hnode] at hc
        cases hc
      · exact hmono c (ih.2 b hb c hc)
  | @again a i todo out seen _ hnode hi _ ih =>
    replace ih := ih hc
    refine ⟨fun b hb => ?_, ih.2⟩
    rcases List.mem_cons.1 hb with rfl | hb
    · intro j hj
      rw [hnode] at hj
      cases hj
      exact Or.inl hi
    · exact ih.1 b hb
  | @enter a i todo out seen _ hnode _ _ ih =>
    replace ih := ih hc
    have hmono : ∀ b, W.Covered (insert i seen) out b → W.Covered seen (a :: out) b := by
      intro b hb j hj
      rw [nodes_cons_some hnode]
      rcases hb j hj with hseen | hout
      · rcases Finset.mem_insert.1 hseen with rfl | hseen
        · exact Or.inr List.mem_cons_self
        · exact Or.inl hseen
      · exact Or.inr (List.mem_cons_of_mem i hout)
    refine ⟨fun b hb => ?_, fun b hb c hc => ?_⟩
    · rcases List.mem_cons.1 hb with rfl | hb
      · intro j hj
        rw [hnode] at hj
        cases hj
        rw [nodes_cons_some hnode]
        exact Or.inr List.mem_cons_self
      · exact hmono b (ih.1 b (List.mem_append_right _ hb))
    · rcases List.mem_cons.1 hb with rfl | hb
      · exact hmono c (ih.1 c (List.mem_append_left _ hc))
      · exact hmono c (ih.2 b hb c hc)

/-- **All that can be reached is visited** by a complete walk, where the nodes behind an item that
the walk may come to depend on its node only. -/
theorem Visits.mem_iff {a : α} {out : List α} (h : W.Visits [a] ∅ out true)
    (hsame : ∀ b c i, W.Reaches a b → W.Reaches a c → W.node b = some i → W.node c = some i →
      W.nodes (W.expand b) = W.nodes (W.expand c)) (i : ι) :
    i ∈ W.nodes out ↔ ∃ b, W.Reaches a b ∧ W.node b = some i := by
  constructor
  · intro hi
    obtain ⟨b, hb, hnode⟩ := List.mem_filterMap.1 hi
    obtain ⟨c, hc, hreach⟩ := h.reaches b hb
    rw [List.mem_singleton.1 hc] at hreach
    exact ⟨b, hreach, hnode⟩
  · rintro ⟨b, hreach, hnode⟩
    obtain ⟨hstart, hbehind⟩ := h.covered
    have hout : ∀ {c j}, W.Covered ∅ out c → W.node c = some j → j ∈ W.nodes out :=
      fun hc hj => (hc _ hj).resolve_left (Finset.notMem_empty _)
    induction hreach generalizing i with
    | refl => exact hout (hstart a List.mem_cons_self) hnode
    | @tail b c hreach hc ih =>
      cases hb : W.node b with
      | none =>
        rw [Behind, W.leaf b hb] at hc
        cases hc
      | some j =>
        -- The item through which `j` was visited has the nodes of `b` behind it.
        obtain ⟨d, hd, hdnode⟩ := List.mem_filterMap.1 (ih j hb)
        obtain ⟨e, he, hdreach⟩ := h.reaches d hd
        rw [List.mem_singleton.1 he] at hdreach
        have hmem : i ∈ W.nodes (W.expand d) := by
          rw [hsame d b j hdreach hreach hdnode hb]
          exact List.mem_filterMap.2 ⟨c, hc, hnode⟩
        obtain ⟨f, hf, hfnode⟩ := List.mem_filterMap.1 hmem
        exact hout (hbehind d hd f hf) hfnode

end Walk

end LinuxDemo
