import Mathlib.Logic.Function.Basic
import Mathlib.Logic.Relation
import SdeSystems.Lib.Run

/-!
# Programs of atomic operations, side by side

A program is a tree of operations on a shared state: it goes on by what an operation returns. Threads run their
programs in any order, one operation at a time, and a thread whose program has come to its end rests until it
starts the next one.

For proofs each thread has tokens, its part in the shared state. An operation asks for some (`pre`) and says what
becomes of them (`post`); `wp` carries this through a program. Where the operations keep an invariant of the shared
state and everybody's tokens (`Logic`), it holds in every state of every run, and an operation never panics but
where its rule says so (`Logic.run`).
-/

namespace SdeSystems.Lib

open Function Relation

universe u v

/-- A program with operations `Op`, which return a `Res`, and a result. -/
inductive Prog (Op : Type u) (Res : Op → Type v) (β : Type v) : Type (max u v)
  /-- The end, with a result. -/
  | ret (b : β)
  /-- An operation, and how it goes on. -/
  | op (o : Op) (k : Res o → Prog Op Res β)

namespace Prog

variable {Op : Type u} {Res : Op → Type v} {β γ : Type v}

/-- One program after the other. -/
protected def bind : Prog Op Res β → (β → Prog Op Res γ) → Prog Op Res γ
  | .ret b, f => f b
  | .op o k, f => .op o fun r => (k r).bind f

instance : Monad (Prog Op Res) where
  pure := .ret
  bind := Prog.bind

/-- One operation. -/
def call (o : Op) : Prog Op Res (Res o) := .op o .ret

@[simp] theorem pure_eq (b : β) : (pure b : Prog Op Res β) = .ret b := rfl

@[simp] theorem ret_bind (b : β) (f : β → Prog Op Res γ) : ((.ret b : Prog Op Res β) >>= f) = f b := rfl

@[simp] theorem op_bind (o : Op) (k : Res o → Prog Op Res β) (f : β → Prog Op Res γ) :
    ((.op o k : Prog Op Res β) >>= f) = .op o fun r => k r >>= f := rfl

end Prog

/-- What comes of an operation. -/
inductive Answer (σ ρ ε : Type*)
  /-- It returns. -/
  | done (r : ρ) (s : σ)
  /-- It has to wait. -/
  | wait
  /-- It panics. -/
  | panic (e : ε)

/-! ### Rules for operations -/

section

variable {Op : Type u} {Res : Op → Type v} {β γ : Type v} {τ : Type*}

/-- From these tokens the program never asks for what it does not have, and at its end `Q` holds. -/
def wp (pre : Op → τ → Prop) (post : (o : Op) → τ → Res o → τ → Prop) :
    Prog Op Res β → (β → τ → Prop) → τ → Prop
  | .ret b, Q, t => Q b t
  | .op o k, Q, t => pre o t ∧ ∀ r t', post o t r t' → wp pre post (k r) Q t'

variable {pre : Op → τ → Prop} {post : (o : Op) → τ → Res o → τ → Prop} {x : Prog Op Res β} {t : τ}

/-- **The rule of sequence.** -/
theorem wp_bind {f : β → Prog Op Res γ} {Q : γ → τ → Prop} (h : wp pre post x (fun b => wp pre post (f b) Q) t) :
    wp pre post (x >>= f) Q t := by
  induction x generalizing t with
  | ret b => exact h
  | op o k ih =>
    obtain ⟨hpre, hk⟩ := h
    exact ⟨hpre, fun r t' hpost => ih r (hk r t' hpost)⟩

/-- **The rule of one operation.** -/
theorem wp_call {o : Op} {f : Res o → Prog Op Res γ} {Q : γ → τ → Prop} (hpre : pre o t)
    (hf : ∀ r t', post o t r t' → wp pre post (f r) Q t') : wp pre post (Prog.call o >>= f) Q t :=
  ⟨hpre, hf⟩

end

/-! ### Threads -/

section

variable {ι : Type*} [DecidableEq ι] {σ ε τ : Type*} {Op : Type u} {Res : Op → Type v} {β : Type v}

/-- The shared state and the programs of the threads. -/
structure Threads (ι σ : Type*) (Op : Type u) (Res : Op → Type v) (β : Type v) where
  /-- The shared state. -/
  shared : σ
  /-- What each thread has still to do. -/
  prog : ι → Prog Op Res β

/-- How threads run: what an operation does, where it is not allowed, what a thread that rests may start, and what
two that rest may do together. -/
structure Rules (ι σ ε : Type*) (Op : Type u) (Res : Op → Type v) (β : Type v) where
  /-- What an operation of a thread does. -/
  exec : ι → (o : Op) → σ → Answer σ (Res o) ε
  /-- The operation is not part of the runs. -/
  bars : Op → σ → Prop
  /-- What a thread that rests may start. -/
  start : β → Prog Op Res β → Prop
  /-- What two threads that rest may become. -/
  meet : β → β → β → β → Prop

variable {R : Rules ι σ ε Op Res β} {P : Threads ι σ Op Res β}

/-- One step of one thread, or of two that rest. -/
inductive Rules.Step (R : Rules ι σ ε Op Res β) : Threads ι σ Op Res β → Threads ι σ Op Res β → Prop
  /-- An operation. -/
  | op {P : Threads ι σ Op Res β} {p : ι} {o : Op} {k : Res o → Prog Op Res β} {r : Res o} {s : σ}
      (hp : P.prog p = .op o k) (hb : ¬ R.bars o P.shared) (he : R.exec p o P.shared = .done r s) :
      R.Step P ⟨s, update P.prog p (k r)⟩
  /-- The next program. -/
  | start {P : Threads ι σ Op Res β} {p : ι} {b : β} {x : Prog Op Res β} (hp : P.prog p = .ret b)
      (hx : R.start b x) : R.Step P ⟨P.shared, update P.prog p x⟩
  /-- Two threads together. -/
  | meet {P : Threads ι σ Op Res β} {p q : ι} {b c b' c' : β} (hpq : p ≠ q) (hp : P.prog p = .ret b)
      (hq : P.prog q = .ret c) (hm : R.meet b c b' c') :
      R.Step P ⟨P.shared, update (update P.prog p (.ret b')) q (.ret c')⟩

/-- The rules of a token logic, and that they are right. -/
structure Logic (R : Rules ι σ ε Op Res β) (τ : Type*) where
  /-- The tokens that an operation asks for. -/
  pre : Op → τ → Prop
  /-- What becomes of them. -/
  post : (o : Op) → τ → Res o → τ → Prop
  /-- The tokens of a thread that rests. -/
  home : β → τ → Prop
  /-- What holds of the shared state and all the tokens. -/
  Inv : σ → (ι → τ) → Prop
  /-- The panics that an operation may end in. -/
  panics : Op → ε → Prop
  /-- An operation keeps the invariant. -/
  done {s s' : σ} {T : ι → τ} {p : ι} {o : Op} {r : Res o} : Inv s T → pre o (T p) → ¬ R.bars o s →
    R.exec p o s = .done r s' → ∃ t, post o (T p) r t ∧ Inv s' (update T p t)
  /-- An operation panics only as it may. -/
  panic {s : σ} {T : ι → τ} {p : ι} {o : Op} {e : ε} : Inv s T → pre o (T p) → ¬ R.bars o s →
    R.exec p o s = .panic e → panics o e
  /-- A thread that rests may start its next program. -/
  start {b : β} {x : Prog Op Res β} {t : τ} : home b t → R.start b x → wp pre post x home t
  /-- Two threads that rest share out what they have. -/
  meet {s : σ} {T : ι → τ} {p q : ι} {b c b' c' : β} : p ≠ q → home b (T p) → home c (T q) → R.meet b c b' c' →
    Inv s T → ∃ t t', home b' t ∧ home c' t' ∧ Inv s (update (update T p t) q t')

variable (L : Logic R τ)

/-- Each thread has the tokens that the rest of its program asks for. -/
def Logic.Good (P : Threads ι σ Op Res β) : Prop :=
  ∃ T, L.Inv P.shared T ∧ ∀ p, wp L.pre L.post (P.prog p) L.home (T p)

/-- **The step rule**: what an operation leaves goes to its thread. A thread that rests before and after has what it
had, where threads that meet do not stay what they were, and so has a thread that has to wait. -/
theorem Logic.step {P' : Threads ι σ Op Res β} {T : ι → τ} (h : R.Step P P') (hI : L.Inv P.shared T)
    (hT : ∀ p, wp L.pre L.post (P.prog p) L.home (T p)) :
    ∃ T', L.Inv P'.shared T' ∧ (∀ p, wp L.pre L.post (P'.prog p) L.home (T' p)) ∧
      ((∀ b c b' c', R.meet b c b' c' → b' ≠ b ∧ c' ≠ c) →
        ∀ p b, P.prog p = .ret b → P'.prog p = .ret b → T' p = T p) ∧
      ∀ p o k, P.prog p = .op o k → R.exec p o P.shared = .wait → P'.prog p = .op o k ∧ T' p = T p := by
  cases h with
  | @op p o k r s hp hb he =>
    obtain ⟨hpre, hk⟩ : wp L.pre L.post (.op o k) L.home (T p) := hp ▸ hT p
    obtain ⟨t, hpost, hI'⟩ := L.done hI hpre hb he
    refine ⟨update T p t, hI', ?_, ?_, ?_⟩
    · intro q
      dsimp only
      by_cases hq : q = p
      · subst hq
        rw [update_self, update_self]
        exact hk r t hpost
      · rw [update_of_ne hq, update_of_ne hq]
        exact hT q
    · intro _ q b hq _
      refine update_of_ne ?_ t T
      rintro rfl
      rw [hp] at hq
      cases hq
    · intro q o' k' hq hwait
      have hne : q ≠ p := by
        rintro rfl
        rw [hp] at hq
        cases hq
        rw [he] at hwait
        cases hwait
      exact ⟨(update_of_ne hne _ _).trans hq, update_of_ne hne t T⟩
  | @start p b x hp hx =>
    refine ⟨T, hI, ?_, fun _ _ _ _ _ => rfl, ?_⟩
    · intro q
      dsimp only
      by_cases hq : q = p
      · subst hq
        rw [update_self]
        have hhome : wp L.pre L.post (.ret b) L.home (T q) := hp ▸ hT q
        exact L.start hhome hx
      · rw [update_of_ne hq]
        exact hT q
    · intro q o' k' hq _
      have hne : q ≠ p := by
        rintro rfl
        rw [hp] at hq
        cases hq
      exact ⟨(update_of_ne hne _ _).trans hq, rfl⟩
  | @meet p q b c b' c' hpq hp hq hm =>
    have hb : wp L.pre L.post (.ret b) L.home (T p) := hp ▸ hT p
    have hc : wp L.pre L.post (.ret c) L.home (T q) := hq ▸ hT q
    obtain ⟨t, t', ht, ht', hI'⟩ := L.meet hpq hb hc hm hI
    refine ⟨update (update T p t) q t', hI', ?_, ?_, ?_⟩
    · intro i
      dsimp only
      by_cases hiq : i = q
      · subst hiq
        rw [update_self, update_self]
        exact ht'
      · rw [update_of_ne hiq, update_of_ne hiq]
        by_cases hip : i = p
        · subst hip
          rw [update_self, update_self]
          exact ht
        · rw [update_of_ne hip, update_of_ne hip]
          exact hT i
    · intro hmeet i a hi hi'
      dsimp only at hi'
      obtain ⟨hbne, hcne⟩ := hmeet b c b' c' hm
      have hiq : i ≠ q := by
        rintro rfl
        rw [update_self] at hi'
        exact hcne (Prog.ret.inj (hi'.trans (hi.symm.trans hq)))
      have hip : i ≠ p := by
        rintro rfl
        rw [update_of_ne hiq, update_self] at hi'
        exact hbne (Prog.ret.inj (hi'.trans (hi.symm.trans hp)))
      rw [update_of_ne hiq, update_of_ne hip]
    · intro i o k hi _
      have hiq : i ≠ q := by
        rintro rfl
        rw [hq] at hi
        cases hi
      have hip : i ≠ p := by
        rintro rfl
        rw [hp] at hi
        cases hi
      dsimp only
      rw [update_of_ne hiq, update_of_ne hip, update_of_ne hiq, update_of_ne hip]
      exact ⟨hi, rfl⟩

theorem Logic.good_step {P' : Threads ι σ Op Res β} (h : R.Step P P') (hP : L.Good P) : L.Good P' := by
  obtain ⟨T, hI, hT⟩ := hP
  obtain ⟨T', hI', hT', -, -⟩ := L.step h hI hT
  exact ⟨T', hI', hT'⟩

/-- **The run rule**: in every state that a run reaches each thread has what it asks for. -/
theorem Logic.run {P' : Threads ι σ Op Res β} (h : ReflTransGen R.Step P P') (hP : L.Good P) : L.Good P' :=
  run_inv (fun _ _ hs hx => L.good_step hs hx) h hP

/-- **The rule of the resting thread**: while it rests it keeps its tokens, whatever the others do. -/
theorem Logic.run_resting {P' : Threads ι σ Op Res β} {p : ι} {b : β}
    (hmeet : ∀ b c b' c', R.meet b c b' c' → b' ≠ b ∧ c' ≠ c) (hP : L.Good P) (hp : P.prog p = .ret b)
    (h : ReflTransGen (fun P P' => R.Step P P' ∧ P'.prog p = P.prog p) P P') :
    ∃ t, L.home b t ∧ (∃ T, L.Inv P.shared T ∧ T p = t) ∧ ∃ T, L.Inv P'.shared T ∧ T p = t := by
  obtain ⟨T, hI, hT⟩ := hP
  have hhome : wp L.pre L.post (.ret b) L.home (T p) := hp ▸ hT p
  have hrun : P'.prog p = .ret b ∧ ∃ T', L.Inv P'.shared T' ∧
      (∀ q, wp L.pre L.post (P'.prog q) L.home (T' q)) ∧ T' p = T p := by
    refine run_inv (I := fun Q => Q.prog p = .ret b ∧ ∃ T', L.Inv Q.shared T' ∧
      (∀ q, wp L.pre L.post (Q.prog q) L.home (T' q)) ∧ T' p = T p) ?_ h ⟨hp, T, hI, hT, rfl⟩
    rintro Q Q' ⟨hs, hsame⟩ ⟨hQ, T₁, hI₁, hT₁, heq⟩
    have hQ' : Q'.prog p = .ret b := hsame.trans hQ
    obtain ⟨T₂, hI₂, hT₂, hkeep, -⟩ := L.step hs hI₁ hT₁
    exact ⟨hQ', T₂, hI₂, hT₂, (hkeep hmeet p b hQ hQ').trans heq⟩
  obtain ⟨-, T', hI', -, heq⟩ := hrun
  exact ⟨T p, hhome, ⟨T, hI, rfl⟩, T', hI', heq⟩

/-- An operation that comes next panics only as it may. -/
theorem Logic.Good.panics {L : Logic R τ} (hP : L.Good P) {p : ι} {o : Op} {k : Res o → Prog Op Res β} {e : ε}
    (hp : P.prog p = .op o k) (hb : ¬ R.bars o P.shared) (he : R.exec p o P.shared = .panic e) : L.panics o e := by
  obtain ⟨T, hI, hT⟩ := hP
  obtain ⟨hpre, -⟩ : wp L.pre L.post (.op o k) L.home (T p) := hp ▸ hT p
  exact L.panic hI hpre hb he

end

end SdeSystems.Lib
