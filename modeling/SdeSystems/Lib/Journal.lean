import Mathlib.Logic.Function.Basic
import Mathlib.Data.Nat.Notation
import SdeSystems.Lib.Simulation

/-!
# A store whose operations survive a crash whole or not at all

The redo of a list of updates over a store, and a journal: operations run side by side and write,
a commit makes durable what has been written so far, and may come only when no operation runs; a crash
loses what is not durable and ends the operations that run. The result about journals, `Accepts.atomic`:
of every operation, all writes are durable or none is, and the ones of an operation that has durable
writes are all it will ever write.
-/

namespace SdeSystems.Lib

open Function

variable {π ι β : Type*}

section Redo

variable [DecidableEq ι]

/-- The store after the updates, the first first. -/
def redo (d : ι → β) (l : List (ι × β)) : ι → β := l.foldl (fun d u => update d u.1 u.2) d

variable {d d' : ι → β} {l l' : List (ι × β)} {i : ι} {v : β}

@[simp] theorem redo_nil : redo d [] = d := rfl

@[simp] theorem redo_cons {u : ι × β} : redo d (u :: l) = redo (update d u.1 u.2) l := rfl

theorem redo_append : redo d (l ++ l') = redo (redo d l) l' := List.foldl_append

theorem redo_concat : redo d (l ++ [(i, v)]) = update (redo d l) i v := redo_append

/-- What the updates do not name stays. -/
theorem redo_of_notMem (h : ∀ u ∈ l, u.1 ≠ i) : redo d l i = d i := by
  induction l generalizing d with
  | nil => rfl
  | cons u l ih =>
    rw [redo_cons, ih fun w hw => h w (List.mem_cons_of_mem _ hw)]
    exact update_of_ne (h u List.mem_cons_self).symm _ _

/-- Where each key has one value, it is that value. -/
theorem redo_of_mem (h : ∀ u ∈ l, u.1 = i → u.2 = v) (hi : ∃ u ∈ l, u.1 = i) : redo d l i = v := by
  induction l generalizing d with
  | nil => simp at hi
  | cons u l ih =>
    rw [redo_cons]
    by_cases hl : ∃ w ∈ l, w.1 = i
    · exact ih (fun w hw => h w (List.mem_cons_of_mem _ hw)) hl
    · have hu : u.1 = i := by
        obtain ⟨w, hw, hwi⟩ := hi
        rcases List.mem_cons.1 hw with rfl | hw
        · exact hwi
        · exact absurd ⟨w, hw, hwi⟩ hl
      have hne : ∀ w ∈ l, w.1 ≠ i := fun w hw hwi => hl ⟨w, hw, hwi⟩
      rw [redo_of_notMem hne, ← hu, update_self]
      exact h u List.mem_cons_self hu

end Redo

/-! ### The journal -/

/-- A write, and the operation it is of. -/
structure Write (ι β : Type*) where
  /-- The operation. -/
  op : ℕ
  /-- Where. -/
  key : ι
  /-- What. -/
  value : β

/-- What happens to a journal. -/
inductive Event (π ι β : Type*)
  /-- A party starts an operation. -/
  | start (p : π)
  /-- A party writes, within its operation. -/
  | write (p : π) (i : ι) (v : β)
  /-- A party has done its operation. -/
  | finish (p : π)
  /-- What is written becomes durable. -/
  | commit
  /-- All that is not durable is lost. -/
  | crash

/-- A journal. -/
structure Journal (π ι β : Type*) where
  /-- How many operations have started. -/
  started : ℕ
  /-- The operation a party runs. -/
  running : π → Option ℕ
  /-- The writes that a crash leaves. -/
  durable : List (Write ι β)
  /-- The writes since the last commit. -/
  pending : List (Write ι β)
  /-- The writes that crashes have undone. -/
  lost : List (Write ι β)

namespace Journal

/-- No operation has started. -/
def empty : Journal π ι β := ⟨0, fun _ => none, [], [], []⟩

/-- The updates of some writes. -/
def updates (l : List (Write ι β)) : List (ι × β) := l.map fun w => (w.key, w.value)

/-- The store a crash leaves, `d` being the one at the start. -/
def kept [DecidableEq ι] (j : Journal π ι β) (d : ι → β) : ι → β := redo d (updates j.durable)

/-- The store as it is. -/
def current [DecidableEq ι] (j : Journal π ι β) (d : ι → β) : ι → β := redo d (updates (j.durable ++ j.pending))

/-- **What a journal may do.** -/
inductive Next [DecidableEq π] : Journal π ι β → Event π ι β → Journal π ι β → Prop
  /-- An operation gets the next number. -/
  | start {j : Journal π ι β} (p : π) (h : j.running p = none) :
      Next j (.start p) { j with started := j.started + 1, running := update j.running p (some j.started) }
  /-- A write of a running operation. -/
  | write {j : Journal π ι β} (p : π) (i : ι) (v : β) {o : ℕ} (h : j.running p = some o) :
      Next j (.write p i v) { j with pending := j.pending ++ [⟨o, i, v⟩] }
  /-- The operation is over. -/
  | finish {j : Journal π ι β} (p : π) {o : ℕ} (h : j.running p = some o) :
      Next j (.finish p) { j with running := update j.running p none }
  /-- All writes become durable, while no operation runs. -/
  | commit {j : Journal π ι β} (h : ∀ p, j.running p = none) :
      Next j .commit { j with durable := j.durable ++ j.pending, pending := [] }
  /-- The writes since the last commit are lost, and the operations that ran are no more. -/
  | crash {j : Journal π ι β} :
      Next j .crash { j with running := fun _ => none, pending := [], lost := j.lost ++ j.pending }

/-- The operation has a write among these. -/
def Within (l : List (Write ι β)) (o : ℕ) : Prop := ∃ w ∈ l, w.op = o

/-- **All or nothing.** -/
structure Atomic (j : Journal π ι β) : Prop where
  /-- An operation some of whose writes are durable has no write that is not, and runs no more. -/
  durable : ∀ o, Within j.durable o → ¬ Within j.pending o ∧ ¬ Within j.lost o ∧ ∀ p, j.running p ≠ some o
  /-- An operation that lost a write lost all, and runs no more. -/
  lost : ∀ o, Within j.lost o → ¬ Within j.durable o ∧ ¬ Within j.pending o ∧ ∀ p, j.running p ≠ some o

/-- The invariant: also that the numbers of operations are used once. -/
structure Ok (j : Journal π ι β) : Prop extends Atomic j where
  /-- The running operations have started. -/
  running_lt : ∀ p o, j.running p = some o → o < j.started
  /-- So have those that have written. -/
  within_lt : ∀ o, Within (j.durable ++ j.pending ++ j.lost) o → o < j.started

theorem within_append {l l' : List (Write ι β)} {o : ℕ} : Within (l ++ l') o ↔ Within l o ∨ Within l' o := by
  simp only [Within, List.mem_append, or_and_right, exists_or]

theorem not_within_nil {o : ℕ} : ¬ Within ([] : List (Write ι β)) o := by simp [Within]

theorem within_concat {l : List (Write ι β)} {o o' : ℕ} {i : ι} {v : β} :
    Within (l ++ [⟨o', i, v⟩]) o ↔ Within l o ∨ o' = o := by
  rw [within_append]
  simp [Within]

theorem ok_empty : Ok (empty : Journal π ι β) where
  durable := fun _ h => absurd h not_within_nil
  lost := fun _ h => absurd h not_within_nil
  running_lt := by simp [empty]
  within_lt := by simp [empty, Within]

variable [DecidableEq π]

/-- **One step keeps the invariant.** -/
theorem Next.ok {j j' : Journal π ι β} {e : Event π ι β} (h : Next j e j') (hj : Ok j) : Ok j' := by
  have hlt : ∀ o, (Within j.durable o ∨ Within j.pending o) ∨ Within j.lost o → o < j.started := by
    intro o ho
    apply hj.within_lt
    rwa [within_append, within_append]
  cases h with
  | start p hp =>
    have hnew : ∀ o, o < j.started → ∀ q, update j.running p (some j.started) q = some o → j.running q = some o := by
      intro o ho q hq
      by_cases hqp : q = p
      · subst hqp
        rw [update_self, Option.some.injEq] at hq
        omega
      · rwa [update_of_ne hqp] at hq
    refine ⟨⟨?_, ?_⟩, ?_, ?_⟩
    · intro o ho
      obtain ⟨h₁, h₂, h₃⟩ := hj.durable o ho
      exact ⟨h₁, h₂, fun q hq => h₃ q (hnew o (hlt o (.inl (.inl ho))) q hq)⟩
    · intro o ho
      obtain ⟨h₁, h₂, h₃⟩ := hj.lost o ho
      exact ⟨h₁, h₂, fun q hq => h₃ q (hnew o (hlt o (.inr ho)) q hq)⟩
    · intro q o hq
      dsimp only at hq ⊢
      by_cases hqp : q = p
      · subst hqp
        rw [update_self, Option.some.injEq] at hq
        omega
      · rw [update_of_ne hqp] at hq
        have := hj.running_lt q o hq
        omega
    · intro o ho
      have := hj.within_lt o ho
      dsimp only
      omega
  | write p i v hp =>
    refine ⟨⟨?_, ?_⟩, hj.running_lt, ?_⟩
    · intro o ho
      obtain ⟨h₁, h₂, h₃⟩ := hj.durable o ho
      refine ⟨?_, h₂, h₃⟩
      rw [within_concat]
      rintro (h | rfl)
      · exact h₁ h
      · exact h₃ p hp
    · intro o ho
      obtain ⟨h₁, h₂, h₃⟩ := hj.lost o ho
      refine ⟨h₁, ?_, h₃⟩
      rw [within_concat]
      rintro (h | rfl)
      · exact h₂ h
      · exact h₃ p hp
    · intro o ho
      rw [within_append, within_append, within_concat] at ho
      rcases ho with (h | h | rfl) | h
      · exact hlt o (.inl (.inl h))
      · exact hlt o (.inl (.inr h))
      · exact hj.running_lt p _ hp
      · exact hlt o (.inr h)
  | finish p hp =>
    have hold : ∀ q o, update j.running p none q = some o → j.running q = some o := by
      intro q o hq
      by_cases hqp : q = p
      · simp [hqp] at hq
      · rwa [update_of_ne hqp] at hq
    refine ⟨⟨?_, ?_⟩, fun q o hq => hj.running_lt q o (hold q o hq), hj.within_lt⟩
    · intro o ho
      obtain ⟨h₁, h₂, h₃⟩ := hj.durable o ho
      exact ⟨h₁, h₂, fun q hq => h₃ q (hold q o hq)⟩
    · intro o ho
      obtain ⟨h₁, h₂, h₃⟩ := hj.lost o ho
      exact ⟨h₁, h₂, fun q hq => h₃ q (hold q o hq)⟩
  | commit hnone =>
    have hrun : ∀ o p, j.running p ≠ some o := by simp [hnone]
    refine ⟨⟨?_, ?_⟩, hj.running_lt, ?_⟩
    · intro o ho
      refine ⟨not_within_nil, ?_, hrun o⟩
      intro hl
      obtain ⟨h₁, h₂, -⟩ := hj.lost o hl
      rcases within_append.1 ho with h | h
      · exact h₁ h
      · exact h₂ h
    · intro o ho
      obtain ⟨h₁, h₂, -⟩ := hj.lost o ho
      refine ⟨?_, not_within_nil, hrun o⟩
      rw [within_append]
      exact not_or.2 ⟨h₁, h₂⟩
    · intro o ho
      rw [List.append_nil, within_append, within_append] at ho
      exact hlt o ho
  | crash =>
    refine ⟨⟨?_, ?_⟩, by simp, ?_⟩
    · intro o ho
      obtain ⟨h₁, h₂, -⟩ := hj.durable o ho
      refine ⟨not_within_nil, ?_, by simp⟩
      rw [within_append]
      exact not_or.2 ⟨h₂, h₁⟩
    · intro o ho
      refine ⟨?_, not_within_nil, by simp⟩
      intro hd
      obtain ⟨h₁, h₂, -⟩ := hj.durable o hd
      rcases within_append.1 ho with h | h
      · exact h₂ h
      · exact h₁ h
    · intro o ho
      simp only [within_append, not_within_nil, or_false] at ho
      rcases ho with h | h | h
      · exact hlt o (.inl (.inl h))
      · exact hlt o (.inr h)
      · exact hlt o (.inl (.inr h))

/-- **A journal is atomic**, after any run. -/
theorem atomic_of_accepts {es : List (Event π ι β)} {j : Journal π ι β} (h : Accepts Next empty es j) : Atomic j :=
  (h.inv (fun _ _ _ hs hx => hs.ok hx) ok_empty).toAtomic

/-! ### What the steps do to the stores -/

section

variable [DecidableEq ι] {j : Journal π ι β} {d : ι → β}

omit [DecidableEq π] in
theorem current_write {o : ℕ} {i : ι} {v : β} :
    current { j with pending := j.pending ++ [⟨o, i, v⟩] } d = update (j.current d) i v := by
  simp only [current, updates, ← List.append_assoc, List.map_append, List.map_cons, List.map_nil, redo_concat]

omit [DecidableEq π] in
theorem current_of_pending_nil (h : j.pending = []) : j.current d = j.kept d := by
  rw [current, h, List.append_nil, kept]

end

end Journal

end SdeSystems.Lib
