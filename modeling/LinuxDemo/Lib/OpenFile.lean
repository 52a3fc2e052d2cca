import Mathlib.Algebra.BigOperators.Group.Finset.Basic
import Mathlib.Data.Fintype.BigOperators
import Mathlib.Data.List.Basic
import Mathlib.Logic.Function.Basic

/-!
# Files with several writers

A file is written through open file descriptions, each with an offset of its own. Descriptors that share
a description share its offset.

* `Merged`, `Merged.append`: writers that share one offset leave a merge of what they have written.
* `Overlaid`, `Overlaid.writeAt`: writers that have each an offset of their own write over each other; every
  byte of the file is one that some writer has written there, and the file is as long as the longest text.
-/

namespace LinuxDemo

variable {α δ : Type*}

/-- `content` after `bs` was written at the position `pos`. A gap before it is filled with zeros. -/
def writeAt [Zero α] (content : List α) (pos : ℕ) (bs : List α) : List α :=
  if bs = [] then content
  else content.take pos ++ List.replicate (pos - content.length) 0 ++ bs ++ content.drop (pos + bs.length)

/-- A file that is open, with the offsets of its open file descriptions. -/
structure OpenFile (α δ : Type*) where
  content : List α
  offset : δ → ℕ

def OpenFile.write [Zero α] [DecidableEq δ] (f : OpenFile α δ) (d : δ) (bs : List α) : OpenFile α δ where
  content := writeAt f.content (f.offset d) bs
  offset := Function.update f.offset d (f.offset d + bs.length)

/-! ## One write -/

section Write

variable [Zero α]

theorem writeAt_length (content bs : List α) : writeAt content content.length bs = content ++ bs := by
  unfold writeAt
  split_ifs with h
  · rw [h, List.append_nil]
  · rw [List.take_length, Nat.sub_self, List.replicate_zero, List.append_nil,
      List.drop_eq_nil_of_le (Nat.le_add_right _ _), List.append_nil]

variable {content : List α} {pos : ℕ} (h : pos ≤ content.length)
include h

theorem length_writeAt (bs : List α) :
    (writeAt content pos bs).length = max content.length (pos + bs.length) := by
  unfold writeAt
  split_ifs with hbs
  · rw [hbs, List.length_nil, Nat.add_zero, max_eq_left h]
  · simp only [List.length_append, List.length_take, List.length_replicate, List.length_drop]
    omega

/-- What is at the place `i` after the write. -/
theorem getElem?_writeAt (bs : List α) (i : ℕ) :
    (writeAt content pos bs)[i]? =
      if pos ≤ i ∧ i < pos + bs.length then bs[i - pos]? else content[i]? := by
  unfold writeAt
  split_ifs with hbs hi hi
  · rw [hbs, List.length_nil] at hi
    omega
  · rfl
  · rw [Nat.sub_eq_zero_of_le h, List.replicate_zero, List.append_nil, List.append_assoc,
      List.getElem?_append_right (by rw [List.length_take]; omega), List.length_take,
      min_eq_left h, List.getElem?_append_left (by omega)]
  · rw [Nat.sub_eq_zero_of_le h, List.replicate_zero, List.append_nil, List.append_assoc]
    by_cases hlt : i < pos
    · rw [List.getElem?_append_left (by rw [List.length_take]; omega), List.getElem?_take_of_lt hlt]
    · rw [List.getElem?_append_right (by rw [List.length_take]; omega), List.length_take,
        min_eq_left h, List.getElem?_append_right (by omega), List.getElem?_drop]
      congr 1
      omega

end Write

/-! ## One offset for all -/

/-- The list is a merge of the parts: each part is in it, in its order, and nothing else. -/
def Merged [DecidableEq δ] (parts : δ → List α) (content : List α) : Prop :=
  ∃ tagged : List (δ × α), tagged.map Prod.snd = content ∧
    ∀ d, (tagged.filter fun x => x.1 = d).map Prod.snd = parts d

namespace Merged

variable [DecidableEq δ] {parts : δ → List α} {content : List α}

theorem nil : Merged (fun _ : δ => ([] : List α)) [] := ⟨[], rfl, fun _ => rfl⟩

/-- A writer appends to its part and to the whole. -/
theorem append (h : Merged parts content) (d : δ) (bs : List α) :
    Merged (Function.update parts d (parts d ++ bs)) (content ++ bs) := by
  obtain ⟨tagged, hcontent, hparts⟩ := h
  refine ⟨tagged ++ bs.map fun b => (d, b), ?_, fun e => ?_⟩
  · rw [List.map_append, hcontent, List.map_map]
    congr 1
    exact List.map_id bs
  · rw [List.filter_append, List.map_append, hparts e]
    by_cases he : e = d
    · subst he
      rw [Function.update_self, List.filter_eq_self.2 (by simp), List.map_map]
      congr 1
      exact List.map_id bs
    · rw [Function.update_of_ne he, List.filter_eq_nil_iff.2 (by simp [Ne.symm he]), List.map_nil,
        List.append_nil]

/-- Whatever is counted is counted in the parts. -/
theorem count_eq [Fintype δ] [BEq α] (h : Merged parts content) (a : α) :
    content.count a = ∑ d, (parts d).count a := by
  obtain ⟨tagged, rfl, hparts⟩ := h
  simp only [← hparts]
  clear hparts
  induction tagged with
  | nil => simp
  | cons x tagged ih =>
    have hone : ∀ d, (((x :: tagged).filter fun y => y.1 = d).map Prod.snd).count a =
        ((tagged.filter fun y => y.1 = d).map Prod.snd).count a + if x.1 = d then [x.2].count a else 0 := by
      intro d
      by_cases hd : x.1 = d
      · rw [List.filter_cons_of_pos (by simpa using hd), List.map_cons, if_pos hd,
          ← List.singleton_append, List.count_append, Nat.add_comm]
      · rw [List.filter_cons_of_neg (by simpa using hd), if_neg hd, Nat.add_zero]
    rw [Finset.sum_congr rfl fun d _ => hone d, Finset.sum_add_distrib, Finset.sum_ite_eq, ← ih,
      List.map_cons, ← List.singleton_append, List.count_append, if_pos (Finset.mem_univ _), Nat.add_comm]

end Merged

/-! ## An offset for each -/

/-- The parts lie over each other. -/
structure Overlaid (parts : δ → List α) (content : List α) : Prop where
  le_length : ∀ d, (parts d).length ≤ content.length
  length_eq : content ≠ [] → ∃ d, content.length = (parts d).length
  mem : ∀ (i : ℕ) (b : α), content[i]? = some b → ∃ d, (parts d)[i]? = some b

namespace Overlaid

theorem nil : Overlaid (fun _ : δ => ([] : List α)) [] :=
  ⟨fun _ => le_rfl, fun h => absurd rfl h, fun i b h => by simp at h⟩

variable [DecidableEq δ] {parts : δ → List α} {content : List α}

/-- A writer goes on at the end of its part. -/
theorem writeAt [Zero α] (h : Overlaid parts content) (d : δ) (bs : List α) :
    Overlaid (Function.update parts d (parts d ++ bs)) (writeAt content (parts d).length bs) := by
  have hlength := length_writeAt (h.le_length d) bs
  refine ⟨fun e => ?_, fun _ => ?_, fun i b hb => ?_⟩
  · rw [hlength]
    by_cases he : e = d
    · rw [he, Function.update_self, List.length_append]
      exact le_max_right _ _
    · rw [Function.update_of_ne he]
      exact (h.le_length e).trans (le_max_left _ _)
  · rw [hlength]
    by_cases hle : content.length ≤ (parts d).length + bs.length
    · refine ⟨d, ?_⟩
      rw [Function.update_self, List.length_append, max_eq_right hle]
    · -- Some other part is the longest one.
      rw [not_le] at hle
      obtain ⟨e, he⟩ := h.length_eq (List.ne_nil_of_length_pos (by omega))
      have hne : e ≠ d := by
        rintro rfl
        omega
      exact ⟨e, by rw [Function.update_of_ne hne, max_eq_left hle.le, he]⟩
  · rw [getElem?_writeAt (h.le_length d)] at hb
    split_ifs at hb with hi
    · refine ⟨d, ?_⟩
      rw [Function.update_self, List.getElem?_append_right hi.1, hb]
    · obtain ⟨e, he⟩ := h.mem i b hb
      by_cases hed : e = d
      · rw [hed] at he
        refine ⟨d, ?_⟩
        rw [Function.update_self, List.getElem?_append_left (List.getElem?_eq_some_iff.1 he).1, he]
      · exact ⟨e, by rw [Function.update_of_ne hed, he]⟩

end Overlaid

end LinuxDemo
