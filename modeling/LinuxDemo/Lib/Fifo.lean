import Mathlib.Data.List.Infix

/-!
# A FIFO and the messages in it

The kernel's side of a named pipe: how many processes have it open for reading and for writing, how
often it was opened, and the data. An `open` waits until the other side has been opened. A write
that is no longer than `PIPE_BUF` is atomic. The data is gone when everybody has closed the FIFO.

* `openRead`, `openWrite`, `closeRead`, `closeWrite`, `write`: the operations.
* `Messages`: a stream that consists of whole copies of a message, which ends with a byte that it has
  nowhere else. `Messages.of_terminator`: where that byte was read, a message ends.
-/

namespace LinuxDemo

structure Fifo (α : Type*) where
  readers : ℕ
  writers : ℕ
  /-- How often the FIFO was opened for reading. -/
  readerOpens : ℕ
  writerOpens : ℕ
  data : List α

namespace Fifo

variable {α : Type*}

def unused : Fifo α := ⟨0, 0, 0, 0, []⟩

def openRead (f : Fifo α) : Fifo α :=
  { f with readers := f.readers + 1, readerOpens := f.readerOpens + 1 }

def openWrite (f : Fifo α) : Fifo α :=
  { f with writers := f.writers + 1, writerOpens := f.writerOpens + 1 }

/-- Nobody has the FIFO open: the data is gone. -/
def release (f : Fifo α) : Fifo α := if f.readers = 0 ∧ f.writers = 0 then { f with data := [] } else f

def closeRead (f : Fifo α) : Fifo α := release { f with readers := f.readers - 1 }

def closeWrite (f : Fifo α) : Fifo α := release { f with writers := f.writers - 1 }

/-- A write of at most `PIPE_BUF` bytes, or a portion of a longer one. It waits for room. -/
def write (f : Fifo α) (capacity : ℕ) (msg : List α) : Option (Fifo α) :=
  if f.data.length + msg.length ≤ capacity then some { f with data := f.data ++ msg } else none

@[simp] theorem release_readers (f : Fifo α) : f.release.readers = f.readers := by
  unfold release
  split_ifs <;> rfl

@[simp] theorem release_writers (f : Fifo α) : f.release.writers = f.writers := by
  unfold release
  split_ifs <;> rfl

@[simp] theorem release_writerOpens (f : Fifo α) : f.release.writerOpens = f.writerOpens := by
  unfold release
  split_ifs <;> rfl

/-- With a reader or a writer left, the data stays. -/
theorem release_data {f : Fifo α} (h : 0 < f.readers ∨ 0 < f.writers) : f.release.data = f.data := by
  unfold release
  rw [if_neg (by omega)]

end Fifo

/-! ## Messages -/

/-- The stream consists of whole messages. -/
def Messages {α : Type*} (msg l : List α) : Prop := ∃ n, l = (List.replicate n msg).flatten

namespace Messages

variable {α : Type*} {msg l l' : List α}

theorem nil : Messages msg [] := ⟨0, rfl⟩

theorem append_self (h : Messages msg l) : Messages msg (l ++ msg) := by
  obtain ⟨n, rfl⟩ := h
  exact ⟨n + 1, by rw [List.replicate_succ', List.flatten_append, List.flatten_singleton]⟩

theorem self_append (h : Messages msg l) : Messages msg (msg ++ l) := by
  obtain ⟨n, rfl⟩ := h
  exact ⟨n + 1, by rw [List.replicate_succ, List.flatten_cons]⟩

/-- What was read is a part of one message, as long as no message has ended. -/
theorem isPrefix {body : List α} {d : α} (h : Messages (body ++ [d]) (l ++ l')) (hd : d ∉ l) :
    l <+: body := by
  obtain ⟨n, hn⟩ := h
  cases n with
  | zero =>
    rw [(List.append_eq_nil_iff.1 hn).1]
    exact List.nil_prefix
  | succ n =>
    rw [List.replicate_succ, List.flatten_cons] at hn
    rcases List.append_eq_append_iff.1 hn with ⟨rest, hmsg, -⟩ | ⟨rest, hl, -⟩
    · rcases List.eq_nil_or_concat rest with rfl | ⟨rest, e, rfl⟩
      · rw [List.append_nil] at hmsg
        exact absurd (hmsg ▸ List.mem_append_right _ (List.mem_singleton_self d)) hd
      · rw [List.concat_eq_append, ← List.append_assoc] at hmsg
        exact ⟨rest, (List.append_inj' hmsg rfl).1.symm⟩
    · rw [hl] at hd
      exact absurd (List.mem_append_left _ (List.mem_append_right _ (List.mem_singleton_self d))) hd

/-- The first `d` is at one place. -/
theorem append_cons_inj {x₁ x₂ z₁ z₂ : List α} {d : α} (h₁ : d ∉ x₁) (h₂ : d ∉ x₂)
    (h : x₁ ++ d :: z₁ = x₂ ++ d :: z₂) : x₁ = x₂ ∧ z₁ = z₂ := by
  rcases List.append_eq_append_iff.1 h with ⟨c, rfl, hc⟩ | ⟨c, rfl, hc⟩
  · cases c with
    | nil => exact ⟨(List.append_nil x₁).symm, (List.cons.inj hc).2⟩
    | cons e c =>
      rw [(List.cons.inj hc).1] at h₂
      exact absurd (List.mem_append_right _ List.mem_cons_self) h₂
  · cases c with
    | nil => exact ⟨List.append_nil x₂, (List.cons.inj hc).2.symm⟩
    | cons e c =>
      rw [(List.cons.inj hc).1] at h₁
      exact absurd (List.mem_append_right _ List.mem_cons_self) h₁

/-- **A message ends with its terminator.** -/
theorem of_terminator {body : List α} {d : α} (hbody : d ∉ body)
    (h : Messages (body ++ [d]) (l ++ d :: l')) : Messages (body ++ [d]) (l ++ [d]) := by
  obtain ⟨n, hn⟩ := h
  induction n generalizing l with
  | zero => exact absurd (List.append_eq_nil_iff.1 hn).2 (List.cons_ne_nil _ _)
  | succ n ih =>
    rw [List.replicate_succ, List.flatten_cons, List.append_assoc, List.singleton_append] at hn
    by_cases hd : d ∈ l
    · -- The first message is read, and `l` goes on behind it.
      obtain ⟨l₁, l₂, rfl, hl₁⟩ := List.eq_append_cons_of_mem hd
      rw [List.append_assoc, List.cons_append] at hn
      obtain ⟨rfl, hrest⟩ := append_cons_inj hl₁ hbody hn
      have hmsgs := self_append (ih hrest)
      rwa [List.append_assoc, List.singleton_append, ← List.cons_append, ← List.append_assoc] at hmsgs
    · obtain ⟨rfl, -⟩ := append_cons_inj hd hbody hn
      exact ⟨1, by simp⟩

/-- Up to the first terminator there is one message. -/
theorem eq_body {body : List α} {d : α} (hbody : d ∉ body) (hd : d ∉ l)
    (h : Messages (body ++ [d]) (l ++ d :: l')) : l = body := by
  obtain ⟨n, hn⟩ := h
  cases n with
  | zero => exact absurd (List.append_eq_nil_iff.1 hn).2 (List.cons_ne_nil _ _)
  | succ n =>
    rw [List.replicate_succ, List.flatten_cons, List.append_assoc, List.singleton_append] at hn
    exact (append_cons_inj hd hbody hn).1

/-- Without a terminator there is no message. -/
theorem eq_nil {body : List α} {d : α} (hd : d ∉ l) (h : Messages (body ++ [d]) l) : l = [] := by
  obtain ⟨n, rfl⟩ := h
  cases n with
  | zero => rfl
  | succ n =>
    rw [List.replicate_succ, List.flatten_cons] at hd
    exact absurd (List.mem_append_left _ (List.mem_append_right _ (List.mem_singleton_self d))) hd

end Messages

end LinuxDemo
