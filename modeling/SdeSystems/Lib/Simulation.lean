import Mathlib.Logic.Basic

/-!
# Runs that show events

A system whose steps are silent or show an event, the runs of it, and the rule of forward
simulation: where every step of one system is matched by the steps another may take on the
same events, and a relation between their states is kept, what the first shows in a run the
second accepts.
-/

namespace SdeSystems.Lib

universe u v w

variable {σ : Type u} {τ : Type v} {ε : Type w}

/-- A run and the events it shows, the first first. -/
inductive Shows (R : σ → Option ε → σ → Prop) : σ → List ε → σ → Prop
  /-- No step. -/
  | refl (a : σ) : Shows R a [] a
  /-- One step more, which shows nothing. -/
  | silent {a b c : σ} {es : List ε} (h : Shows R a es b) (hs : R b none c) : Shows R a es c
  /-- One step more, which shows an event. -/
  | event {a b c : σ} {es : List ε} {e : ε} (h : Shows R a es b) (hs : R b (some e) c) :
      Shows R a (es ++ [e]) c

/-- A run of a system all whose steps show an event. -/
inductive Accepts (T : τ → ε → τ → Prop) : τ → List ε → τ → Prop
  /-- No step. -/
  | refl (t : τ) : Accepts T t [] t
  /-- One step more. -/
  | tail {t u v : τ} {es : List ε} {e : ε} (h : Accepts T t es u) (hs : T u e v) : Accepts T t (es ++ [e]) v

variable {R : σ → Option ε → σ → Prop} {T : τ → ε → τ → Prop} {a b c : σ} {t : τ} {es es' : List ε}

theorem Shows.trans (h : Shows R a es b) (h' : Shows R b es' c) : Shows R a (es ++ es') c := by
  induction h' with
  | refl => simpa using h
  | silent _ hs ih => exact ih.silent hs
  | event _ hs ih =>
    rw [← List.append_assoc]
    exact ih.event hs

/-- What every step keeps holds after a run. -/
theorem Shows.inv {I : σ → Prop} (hstep : ∀ x o y, R x o y → I x → I y) (h : Shows R a es b) (ha : I a) : I b := by
  induction h with
  | refl => exact ha
  | silent _ hs ih => exact hstep _ _ _ hs ih
  | event _ hs ih => exact hstep _ _ _ hs ih

/-- What every step of the accepting system keeps. -/
theorem Accepts.inv {I : τ → Prop} (hstep : ∀ x e y, T x e y → I x → I y) {u : τ} (h : Accepts T t es u)
    (ht : I t) : I u := by
  induction h with
  | refl => exact ht
  | tail _ hs ih => exact hstep _ _ _ hs ih

/-- **Forward simulation**, on top of an invariant of the first system. -/
theorem Shows.simulates {J : σ → Prop} {I : σ → τ → Prop} (hJ : ∀ x o y, R x o y → J x → J y)
    (hsilent : ∀ x y u, R x none y → J x → I x u → I y u)
    (hevent : ∀ x e y u, R x (some e) y → J x → I x u → ∃ v, T u e v ∧ I y v)
    (h : Shows R a es b) (haJ : J a) (ha : I a t) : ∃ u, Accepts T t es u ∧ I b u := by
  induction h with
  | refl => exact ⟨t, .refl t, ha⟩
  | silent h hs ih =>
    obtain ⟨u, hu, hI⟩ := ih
    exact ⟨u, hu, hsilent _ _ u hs (h.inv hJ haJ) hI⟩
  | event h hs ih =>
    obtain ⟨u, hu, hI⟩ := ih
    obtain ⟨v, hv, hI⟩ := hevent _ _ _ u hs (h.inv hJ haJ) hI
    exact ⟨v, hu.tail hv, hI⟩

/-! ### What can be reached -/

/-- Some run gets to where `P` holds. -/
def CanReach (R : σ → Option ε → σ → Prop) (a : σ) (P : σ → Prop) : Prop := ∃ es b, Shows R a es b ∧ P b

namespace CanReach

variable {P Q : σ → Prop} {o : Option ε}

theorem here (h : P a) : CanReach R a P := ⟨[], a, .refl a, h⟩

theorem step (hs : R a o b) (h : P b) : CanReach R a P := by
  cases o with
  | none => exact ⟨_, b, (Shows.refl a).silent hs, h⟩
  | some e => exact ⟨_, b, (Shows.refl a).event hs, h⟩

/-- One step, and then a run. -/
theorem head (hs : R a o b) (h : CanReach R b P) : CanReach R a P := by
  obtain ⟨es, c, hc, hP⟩ := h
  cases o with
  | none => exact ⟨_, c, ((Shows.refl a).silent hs).trans hc, hP⟩
  | some e => exact ⟨_, c, ((Shows.refl a).event hs).trans hc, hP⟩

/-- One run after the other. -/
theorem bind (h : CanReach R a P) (hn : ∀ b, P b → CanReach R b Q) : CanReach R a Q := by
  obtain ⟨es, b, hb, hP⟩ := h
  obtain ⟨es', c, hc, hQ⟩ := hn b hP
  exact ⟨_, c, hb.trans hc, hQ⟩

end CanReach

end SdeSystems.Lib
