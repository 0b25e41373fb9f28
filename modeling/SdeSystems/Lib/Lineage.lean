import Mathlib.Data.Multiset.Basic
import Mathlib.Logic.Relation

/-!
# Resources that are handed down a tree

The members of a tree have resources in places. A resource comes to one member first, and from then
on only from a parent to its child, into the same place. So any two members that have a resource have
it from a common one (`Lineage`); a member without children that has it, and whose parent does not, is
the only one (`Handed.alone`). This is kept as long as members leave the tree only after their children.
-/

namespace SdeSystems.Lib

open Relation

variable {α ι ρ : Type*} {up up' : α → Option α} {S S' : α → Prop} {a o p c : α} {i : ι} {r : ρ}

/-- One step up among those that have a resource. -/
def Above (up : α → Option α) (S : α → Prop) (a b : α) : Prop := S a ∧ S b ∧ up a = some b

/-- Any two of those that have a resource have it from a common one. -/
def Lineage (up : α → Option α) (S : α → Prop) : Prop :=
  ∀ a b, S a → S b → ∃ o, ReflTransGen (Above up S) a o ∧ ReflTransGen (Above up S) b o

theorem lineage_of_subsingleton (h : ∀ a, S a → a = p) : Lineage up S := by
  intro a b ha hb
  rw [h a ha, h b hb]
  exact ⟨p, .refl, .refl⟩

theorem Lineage.congr (h : Lineage up S) (hS : ∀ a, S' a ↔ S a) (hup : ∀ a, S a → up' a = up a) : Lineage up' S' := by
  obtain rfl : S' = S := funext fun a => propext (hS a)
  intro a b ha hb
  obtain ⟨o, hao, hbo⟩ := h a b ha hb
  have hmono : ∀ x y, Above up S' x y → Above up' S' x y :=
    fun x y hxy => ⟨hxy.1, hxy.2.1, (hup x hxy.1).trans hxy.2.2⟩
  exact ⟨o, ReflTransGen.mono hmono _ _ hao, ReflTransGen.mono hmono _ _ hbo⟩

/-- A child of one of them comes in. -/
theorem Lineage.insert (h : Lineage up S) (hp : S p) (hc : up c = some p) : Lineage up fun a => a = c ∨ S a := by
  have hmono : ∀ x y, Above up S x y → Above up (fun a => a = c ∨ S a) x y :=
    fun x y hxy => ⟨.inr hxy.1, .inr hxy.2.1, hxy.2.2⟩
  -- the way up from the child begins with its parent
  have hup (x : α) (hx : x = c ∨ S x) : ∃ y, S y ∧ ∀ o, ReflTransGen (Above up S) y o →
      ReflTransGen (Above up fun a => a = c ∨ S a) x o := by
    rcases hx with rfl | hx
    · exact ⟨p, hp, fun o ho => .head ⟨.inl rfl, .inr hp, hc⟩ (ReflTransGen.mono hmono _ _ ho)⟩
    · exact ⟨x, hx, fun o ho => ReflTransGen.mono hmono _ _ ho⟩
  intro a b ha hb
  obtain ⟨x, hx, hxa⟩ := hup a ha
  obtain ⟨y, hy, hyb⟩ := hup b hb
  obtain ⟨o, hxo, hyo⟩ := h x y hx hy
  exact ⟨o, hxa o hxo, hyb o hyo⟩

/-- No way up among them passes through one that has no child among them. -/
theorem Above.avoids (hleaf : ∀ a, S a → up a ≠ some p) (h : ReflTransGen (Above up S) a o) (hap : a ≠ p) :
    o ≠ p ∧ ReflTransGen (Above up fun a => S a ∧ a ≠ p) a o := by
  induction h with
  | refl => exact ⟨hap, .refl⟩
  | @tail b o hab hstep ih =>
    obtain ⟨hb, ho, hup⟩ := hstep
    obtain ⟨hbp, hway⟩ := ih
    have hop : o ≠ p := fun hop => hleaf b hb (hop ▸ hup)
    exact ⟨hop, hway.tail ⟨⟨hb, hbp⟩, ⟨ho, hop⟩, hup⟩⟩

/-- One that has no child among them goes out. -/
theorem Lineage.erase (h : Lineage up S) (hleaf : ∀ a, S a → up a ≠ some p) : Lineage up fun a => S a ∧ a ≠ p := by
  intro a b ha hb
  obtain ⟨o, hao, hbo⟩ := h a b ha.1 hb.1
  exact ⟨o, (Above.avoids hleaf hao ha.2).2, (Above.avoids hleaf hbo hb.2).2⟩

/-- One that has neither a child nor its parent among them is the only one. -/
theorem Lineage.alone (h : Lineage up S) (hp : S p) (hleaf : ∀ a, S a → up a ≠ some p)
    (hroot : ∀ q, up p = some q → ¬ S q) (ha : S a) : a = p := by
  by_contra hap
  obtain ⟨o, hpo, hao⟩ := h p a hp ha
  -- the way up from `p` ends where it begins
  rcases hpo.cases_head with rfl | ⟨q, ⟨-, hq, hup⟩, -⟩
  · exact (Above.avoids hleaf hao hap).1 rfl
  · exact hroot q hup hq

/-! ### Members, places and resources -/

variable {owns owns' : α → ι → ρ → Prop} {pool pool' : Multiset ρ}

/-- The resources of the pool are with the members of the tree, each in one place and handed down. -/
structure Handed (up : α → Option α) (owns : α → ι → ρ → Prop) (pool : Multiset ρ) : Prop where
  /-- They are those of the pool. -/
  pooled : ∀ a i r, owns a i r → r ∈ pool
  /-- A resource has one place. -/
  once : ∀ a b i j r, owns a i r → owns b j r → i = j
  /-- It is handed down. -/
  lineage : ∀ r, Lineage up fun a => ∃ i, owns a i r

/-- Nobody has anything. -/
theorem handed_of_none (h : ∀ a i r, ¬ owns a i r) : Handed up owns pool where
  pooled a i r ho := absurd ho (h a i r)
  once a b i j r ho := absurd ho (h a i r)
  lineage r a b ha := by
    obtain ⟨i, hi⟩ := ha
    exact absurd hi (h a i r)

/-- Nothing changes hands. -/
theorem Handed.congr (h : Handed up owns pool) (howns : ∀ a i r, owns' a i r ↔ owns a i r)
    (hup : ∀ a i r, owns a i r → up' a = up a) : Handed up' owns' pool where
  pooled a i r ho := h.pooled a i r ((howns a i r).mp ho)
  once a b i j r ho ho' := h.once a b i j r ((howns a i r).mp ho) ((howns b j r).mp ho')
  lineage r := (h.lineage r).congr (fun a => exists_congr fun i => howns a i r) fun a ⟨i, hi⟩ => hup a i r hi

/-- A new resource comes to a member. -/
theorem Handed.add (h : Handed up owns pool) (hr : r ∉ pool)
    (howns : ∀ a j s, owns' a j s ↔ owns a j s ∨ a = p ∧ j = i ∧ s = r) : Handed up owns' (r ::ₘ pool) := by
  have hnew (a : α) (j : ι) (ho : owns' a j r) : a = p ∧ j = i := by
    rcases (howns a j r).mp ho with ho | ⟨ha, hj, -⟩
    · exact absurd (h.pooled a j r ho) hr
    · exact ⟨ha, hj⟩
  have hold (a : α) (j : ι) (s : ρ) (hs : s ≠ r) : owns' a j s ↔ owns a j s :=
    (howns a j s).trans (or_iff_left fun ho => hs ho.2.2)
  refine ⟨?_, ?_, ?_⟩
  · intro a j s ho
    rcases (howns a j s).mp ho with ho | ⟨-, -, rfl⟩
    · exact Multiset.mem_cons_of_mem (h.pooled a j s ho)
    · exact Multiset.mem_cons_self ..
  · intro a b j j' s ho ho'
    by_cases hs : s = r
    · subst hs
      rw [(hnew a j ho).2, (hnew b j' ho').2]
    · exact h.once a b j j' s ((hold a j s hs).mp ho) ((hold b j' s hs).mp ho')
  · intro s
    by_cases hs : s = r
    · subst hs
      exact lineage_of_subsingleton fun a ⟨j, hj⟩ => (hnew a j hj).1
    · exact (h.lineage s).congr (fun a => exists_congr fun j => hold a j s hs) fun _ _ => rfl

/-- A member that has nothing gets all that its parent has. -/
theorem Handed.inherit (h : Handed up owns pool) (hup : up' c = some p) (hsame : ∀ a j s, owns a j s → up' a = up a)
    (howns : ∀ a j s, owns' a j s ↔ owns a j s ∨ a = c ∧ owns p j s) : Handed up' owns' pool := by
  -- what a member has, it or the parent had before
  have hbefore (a : α) (j : ι) (s : ρ) (ho : owns' a j s) : ∃ b, owns b j s :=
    ((howns a j s).mp ho).elim (fun ho => ⟨a, ho⟩) fun ho => ⟨p, ho.2⟩
  refine ⟨?_, ?_, ?_⟩
  · intro a j s ho
    obtain ⟨b, hb⟩ := hbefore a j s ho
    exact h.pooled b j s hb
  · intro a b j j' s ho ho'
    obtain ⟨x, hx⟩ := hbefore a j s ho
    obtain ⟨y, hy⟩ := hbefore b j' s ho'
    exact h.once x y j j' s hx hy
  · intro s
    have hold : Lineage up' fun a => ∃ j, owns a j s :=
      (h.lineage s).congr (fun _ => Iff.rfl) fun a ⟨j, hj⟩ => hsame a j s hj
    by_cases hp : ∃ j, owns p j s
    · refine (hold.insert hp hup).congr ?_ fun _ _ => rfl
      intro a
      constructor
      · rintro ⟨j, ho⟩
        exact ((howns a j s).mp ho).elim (fun ho => .inr ⟨j, ho⟩) fun ho => .inl ho.1
      · rintro (rfl | ⟨j, ho⟩)
        · obtain ⟨j, ho⟩ := hp
          exact ⟨j, (howns _ j s).mpr (.inr ⟨rfl, ho⟩)⟩
        · exact ⟨j, (howns a j s).mpr (.inl ho)⟩
    · refine hold.congr (fun a => exists_congr fun j => (howns a j s).trans ?_) fun _ _ => rfl
      exact or_iff_left fun ho => hp ⟨j, ho.2⟩

/-- A member without children leaves. -/
theorem Handed.leave (h : Handed up owns pool) (hleaf : ∀ a j s, owns a j s → up a ≠ some p)
    (hsame : ∀ a j s, owns a j s → a ≠ p → up' a = up a) (howns : ∀ a j s, owns' a j s ↔ owns a j s ∧ a ≠ p)
    (hpool : ∀ a j s, owns a j s → a ≠ p → s ∈ pool') : Handed up' owns' pool' := by
  refine ⟨?_, ?_, ?_⟩
  · intro a j s ho
    obtain ⟨ho, hap⟩ := (howns a j s).mp ho
    exact hpool a j s ho hap
  · intro a b j j' s ho ho'
    exact h.once a b j j' s ((howns a j s).mp ho).1 ((howns b j' s).mp ho').1
  · intro s
    have herase := (h.lineage s).erase fun a ⟨j, hj⟩ => hleaf a j s hj
    refine herase.congr ?_ fun a ⟨⟨j, hj⟩, hap⟩ => hsame a j s hj hap
    intro a
    rw [← exists_and_right]
    exact exists_congr fun j => howns a j s

/-- A member without children, whose parent does not have the resource, is the only one that has it. -/
theorem Handed.alone {j : ι} (h : Handed up owns pool) (hp : owns p i r)
    (hleaf : ∀ a j s, owns a j s → up a ≠ some p) (hroot : ∀ q j, up p = some q → ¬ owns q j r) (ho : owns a j r) : a = p :=
  (h.lineage r).alone ⟨i, hp⟩ (fun b ⟨j, hj⟩ => hleaf b j r hj) (fun q hq ⟨j, hj⟩ => hroot q j hq hj) ⟨j, ho⟩

end SdeSystems.Lib
