import SdeSystems.Bst.Sequential

/-!
# Calls take effect one at a time

The calls that have taken effect, in the order in which they did (`Entry`), are a run of
the map (`Legal`), and the tree has the map's entries. A call takes effect between its
beginning and its return, so the order respects real time. Since the code run one call at
a time does what the calls do to the map, it returns the same in this order.
-/

namespace SdeSystems.Bst

open Function Relation Lib Lib.Tree

/-- A call that has taken effect. -/
structure Entry where
  /-- The call. -/
  call : Call
  /-- What it returns, or will return. -/
  ret : Ret
  /-- Whether its `malloc` succeeds. -/
  ok : Bool
  /-- When it took effect. -/
  time : ℕ

/-- The call and whether its `malloc` succeeds. -/
def Entry.request (e : Entry) : Op × Bool := (e.call.op, e.ok)

/-- The map after the calls, from the empty map. -/
def mapOf (log : List Entry) : Map := (applyAll (log.map Entry.request) fun _ => none).1

/-- The calls return what they do on the map, in this order. -/
def Legal (log : List Entry) : Prop := (applyAll (log.map Entry.request) fun _ => none).2 = log.map Entry.ret

theorem applyAll_append (l l' : List (Op × Bool)) (D : Map) :
    applyAll (l ++ l') D = ((applyAll l' (applyAll l D).1).1, (applyAll l D).2 ++ (applyAll l' (applyAll l D).1).2) := by
  induction l generalizing D with
  | nil => rfl
  | cons x l ih => simp [applyAll, ih]

theorem mapOf_snoc (log : List Entry) (e : Entry) :
    mapOf (log ++ [e]) = (apply e.ok (mapOf log) e.call.op).1 := by
  simp [mapOf, applyAll_append, applyAll, Entry.request]

theorem legal_snoc {log : List Entry} {e : Entry} (h : Legal log)
    (he : (apply e.ok (mapOf log) e.call.op).2 = e.ret) : Legal (log ++ [e]) := by
  unfold Legal at h
  simp only [Legal, List.map_append, applyAll_append, h, List.map_cons, List.map_nil, applyAll, ← he]
  rfl

/-- The history and the calls of the state. -/
structure History (σ : State) (V : View) (log : List Entry) : Prop where
  /-- The calls return what they do on the map. -/
  legal : Legal log
  /-- The tree has the entries of the map. -/
  entries : Entries V (mapOf log)
  /-- In the order of time. -/
  sorted : log.Pairwise fun e e' => e.time < e'.time
  /-- In the past. -/
  past : ∀ e ∈ log, e.time < σ.now
  /-- After they began. -/
  began : ∀ e ∈ log, e.call.start < e.time
  /-- Each call once. -/
  once : log.Pairwise fun e e' => e.call.start ≠ e'.call.start
  /-- A call in progress that has taken effect is there, with what it will return. -/
  effect : ∀ t c pc r, σ.thread t = some (c, pc) → pc.effect = some r → ∃ e ∈ log, e.call = c ∧ e.ret = r
  /-- One that has not is not. -/
  pending : ∀ t c pc, σ.thread t = some (c, pc) → pc.effect = none → ∀ e ∈ log, e.call.start ≠ c.start
  /-- A call that has returned is there. -/
  completed : ∀ d ∈ σ.completed, ∃ e ∈ log, e.call = d.call ∧ e.ret = d.ret ∧ e.time < d.finish
  /-- There are no others. -/
  known : ∀ e ∈ log, (∃ d ∈ σ.completed, d.call = e.call ∧ d.ret = e.ret) ∨
    ∃ t pc, σ.thread t = some (e.call, pc) ∧ pc.effect = some e.ret
  /-- Calls in progress began in the past. -/
  started : ∀ t c pc, σ.thread t = some (c, pc) → c.start < σ.now
  /-- At different times. -/
  apart : ∀ t u c c' pc pc', σ.thread t = some (c, pc) → σ.thread u = some (c', pc') → c.start = c'.start → t = u
  /-- The calls whose `malloc` failed are those marked so. -/
  failed : ∀ e ∈ log, e.ok = true ↔ e.call.start ∉ σ.failed
  /-- A failed `malloc` is where a call takes effect. -/
  failedPast : ∀ s ∈ σ.failed, s < σ.now ∧ ∀ t c pc, σ.thread t = some (c, pc) → c.start = s → pc.effect ≠ none

theorem history_init : History init .leaf [] where
  legal := rfl
  entries := entries_leaf
  sorted := .nil
  past := by simp
  began := by simp
  once := .nil
  effect t c pc r h := by simp [init] at h
  pending t c pc h := by simp [init] at h
  completed := by simp [init]
  known := by simp
  started t c pc h := by simp [init] at h
  apart t u c c' pc pc' h := by simp [init] at h
  failed := by simp
  failedPast := by simp [init]

section

variable {σ : State} {V V' : View} {log : List Entry} {t : Tid} {c : Call} {pc pc' : Pc} {ao : Option Addr} {m' : Mem}

theorem History.call_step {op : Op} (h : History σ V log) (ht : σ.thread t = none) :
    History { σ with thread := update σ.thread t (some (⟨op, σ.now⟩, .lockTree)), now := σ.now + 1 } V log := by
  -- a thread of the new state is the one that begins, or was there
  have hcase : ∀ u c pc, update σ.thread t (some (⟨op, σ.now⟩, .lockTree)) u = some (c, pc) →
      (u = t ∧ c = ⟨op, σ.now⟩ ∧ pc = .lockTree) ∨ (u ≠ t ∧ σ.thread u = some (c, pc)) := by
    intro u c pc hu
    by_cases hut : u = t
    · subst hut
      simp only [update_self, Option.some.injEq, Prod.mk.injEq] at hu
      exact .inl ⟨rfl, hu.1.symm, hu.2.symm⟩
    · exact .inr ⟨hut, by simpa [hut] using hu⟩
  refine ⟨h.legal, h.entries, h.sorted, fun e he => Nat.lt_succ_of_lt (h.past e he), h.began, h.once, ?_, ?_,
    h.completed, ?_, ?_, ?_, h.failed, fun s hs => ⟨Nat.lt_succ_of_lt (h.failedPast s hs).1, ?_⟩⟩
  · intro u c pc r hu hr
    rcases hcase u c pc hu with ⟨-, -, rfl⟩ | ⟨-, hu⟩
    · simp [Pc.effect] at hr
    · exact h.effect u c pc r hu hr
  · intro u c pc hu hp e he
    rcases hcase u c pc hu with ⟨-, rfl, -⟩ | ⟨-, hu⟩
    · have h₁ := h.began e he
      have h₂ := h.past e he
      exact Nat.ne_of_lt (Nat.lt_trans h₁ h₂)
    · exact h.pending u c pc hu hp e he
  · intro e he
    rcases h.known e he with h' | ⟨u, pc, hu, hr⟩
    · exact .inl h'
    · refine .inr ⟨u, pc, ?_, hr⟩
      have hut : u ≠ t := by rintro rfl; simp [ht] at hu
      simpa [hut] using hu
  · intro u c pc hu
    rcases hcase u c pc hu with ⟨-, rfl, -⟩ | ⟨-, hu⟩
    · exact Nat.lt_succ_self _
    · exact Nat.lt_succ_of_lt (h.started u c pc hu)
  · intro u v c c' pc pc' hu hv hs
    rcases hcase u c pc hu with ⟨rfl, rfl, -⟩ | ⟨-, hu'⟩ <;> rcases hcase v c' pc' hv with ⟨rfl, rfl, -⟩ | ⟨-, hv'⟩
    · rfl
    · exact absurd hs (Nat.ne_of_gt (h.started v c' pc' hv'))
    · exact absurd hs (Nat.ne_of_lt (h.started u c pc hu'))
    · exact h.apart u v c c' pc pc' hu' hv' hs
  · intro u c pc hu hcs
    rcases hcase u c pc hu with ⟨-, rfl, -⟩ | ⟨-, hu⟩
    · exact absurd hcs (Nat.ne_of_gt (h.failedPast s hs).1)
    · exact (h.failedPast s hs).2 u c pc hu hcs

theorem History.ret_step {r : Ret} (h : History σ V log) (ht : σ.thread t = some (c, .ret r)) :
    History { σ with thread := update σ.thread t none, now := σ.now + 1, completed := ⟨c, r, σ.now⟩ :: σ.completed }
      V log := by
  have hcase : ∀ u c pc, update σ.thread t none u = some (c, pc) → u ≠ t ∧ σ.thread u = some (c, pc) := by
    intro u c pc hu
    by_cases hut : u = t
    · subst hut
      simp at hu
    · exact ⟨hut, by simpa [hut] using hu⟩
  refine ⟨h.legal, h.entries, h.sorted, fun e he => Nat.lt_succ_of_lt (h.past e he), h.began, h.once,
    fun u c pc r hu hr => h.effect u c pc r (hcase u c pc hu).2 hr,
    fun u c pc hu hp => h.pending u c pc (hcase u c pc hu).2 hp, ?_, ?_,
    fun u c pc hu => Nat.lt_succ_of_lt (h.started u c pc (hcase u c pc hu).2),
    fun u v c c' pc pc' hu hv hs => h.apart u v c c' pc pc' (hcase u c pc hu).2 (hcase v c' pc' hv).2 hs, h.failed,
    fun s hs => ⟨Nat.lt_succ_of_lt (h.failedPast s hs).1, fun u c pc hu hcs =>
      (h.failedPast s hs).2 u c pc (hcase u c pc hu).2 hcs⟩⟩
  · intro d hd
    rcases List.mem_cons.mp hd with rfl | hd
    · obtain ⟨e, he, rfl, rfl⟩ := h.effect t c (.ret r) r ht rfl
      exact ⟨e, he, rfl, rfl, h.past e he⟩
    · exact h.completed d hd
  · intro e he
    rcases h.known e he with ⟨d, hd, h'⟩ | ⟨u, pc, hu, hr⟩
    · exact .inl ⟨d, List.mem_cons_of_mem _ hd, h'⟩
    · by_cases hut : u = t
      · subst hut
        rw [ht] at hu
        simp only [Option.some.injEq, Prod.mk.injEq] at hu
        obtain ⟨rfl, rfl⟩ := hu
        simp only [Pc.effect, Option.some.injEq] at hr
        exact .inl ⟨_, List.mem_cons_self, rfl, hr⟩
      · exact .inr ⟨u, pc, by simpa [hut] using hu, hr⟩

/-- A failed `malloc` is where a call takes effect. -/
theorem fails_effect (hf : (code c.op pc).mallocFails ao = true)
    (he : exec t ao σ.mem (code c.op pc) = some (m', pc')) : pc'.effect ≠ pc.effect := by
  cases hi : code c.op pc <;> simp only [hi, Instr.mallocFails, Bool.false_eq_true] at hf
  obtain rfl : ao = none := by simpa using hf
  cases pc <;> simp only [code, reduceCtorEq] at hi
  case createRoot =>
    simp only [code, exec, Option.some.injEq, Prod.mk.injEq] at he
    obtain ⟨-, rfl⟩ := he
    simp [Pc.effect]
  case insCreate cur d =>
    simp only [code, exec, Option.some.injEq, Prod.mk.injEq] at he
    obtain ⟨-, rfl⟩ := he
    simp [Pc.effect]
  case d2Link => split_ifs at hi

/-- The threads after a step. -/
theorem move_cases {u : Tid} {cu : Call} {pcu : Pc} (hu : (σ.move t c pc ao m' pc').thread u = some (cu, pcu)) :
    (u = t ∧ cu = c ∧ pcu = pc') ∨ (u ≠ t ∧ σ.thread u = some (cu, pcu)) := by
  by_cases hut : u = t
  · subst hut
    simp only [State.move, update_self, Option.some.injEq, Prod.mk.injEq] at hu
    exact .inl ⟨rfl, hu.1.symm, hu.2.symm⟩
  · exact .inr ⟨hut, by simpa [State.move, hut] using hu⟩

/-- Calls in progress are still different after a step. -/
theorem History.move_apart (h : History σ V log) (ht : σ.thread t = some (c, pc)) {u v : Tid} {cu cv : Call}
    {pcu pcv : Pc} (hu : (σ.move t c pc ao m' pc').thread u = some (cu, pcu))
    (hv : (σ.move t c pc ao m' pc').thread v = some (cv, pcv)) (hs : cu.start = cv.start) : u = v := by
  rcases move_cases hu with ⟨rfl, rfl, -⟩ | ⟨-, hu'⟩ <;> rcases move_cases hv with ⟨rfl, rfl, -⟩ | ⟨-, hv'⟩
  · rfl
  · exact h.apart _ v cu cv pc pcv ht hv' hs
  · exact h.apart u _ cu cv pcu pc hu' ht hs
  · exact h.apart u v cu cv pcu pcv hu' hv' hs

theorem History.move_started (h : History σ V log) (ht : σ.thread t = some (c, pc)) {u : Tid} {cu : Call} {pcu : Pc}
    (hu : (σ.move t c pc ao m' pc').thread u = some (cu, pcu)) : cu.start < σ.now := by
  rcases move_cases hu with ⟨-, rfl, -⟩ | ⟨-, hu⟩
  · exact h.started t cu pc ht
  · exact h.started u cu pcu hu

/-- What was known of an entry stays. -/
theorem History.move_known (h : History σ V log) (ht : σ.thread t = some (c, pc))
    (hsame : ∀ r, pc.effect = some r → pc'.effect = some r) {e : Entry} (he : e ∈ log) :
    (∃ d ∈ σ.completed, d.call = e.call ∧ d.ret = e.ret) ∨
      ∃ u pcu, (σ.move t c pc ao m' pc').thread u = some (e.call, pcu) ∧ pcu.effect = some e.ret := by
  rcases h.known e he with h' | ⟨u, pcu, hu, hr⟩
  · exact .inl h'
  · by_cases hut : u = t
    · subst hut
      rw [ht] at hu
      simp only [Option.some.injEq, Prod.mk.injEq] at hu
      obtain ⟨hc, rfl⟩ := hu
      exact .inr ⟨u, pc', by simp [State.move, hc], hsame _ hr⟩
    · exact .inr ⟨u, pcu, by simpa [State.move, hut] using hu, hr⟩

/-- A step that does not show. -/
theorem History.quiet_step (h : History σ V log) (ht : σ.thread t = some (c, pc))
    (he : exec t ao σ.mem (code c.op pc) = some (m', pc')) (hsame : pc'.effect = pc.effect) :
    History (σ.move t c pc ao m' pc') V log := by
  have hnofail : (σ.move t c pc ao m' pc').failed = σ.failed := by
    simp only [State.move]
    split_ifs with hf
    · exact absurd hsame (fails_effect hf he)
    · rfl
  refine ⟨h.legal, h.entries, h.sorted, fun e he => Nat.lt_succ_of_lt (h.past e he), h.began, h.once, ?_, ?_,
    h.completed, fun e he => h.move_known ht (fun r hr => hsame.trans hr) he,
    fun u cu pcu hu => Nat.lt_succ_of_lt (h.move_started ht hu),
    fun u v cu cv pcu pcv hu hv hs => h.move_apart ht hu hv hs, ?_, ?_⟩
  · intro u cu pcu r hu hr
    rcases move_cases hu with ⟨-, rfl, rfl⟩ | ⟨-, hu⟩
    · exact h.effect t cu pc r ht (hsame ▸ hr)
    · exact h.effect u cu pcu r hu hr
  · intro u cu pcu hu hp
    rcases move_cases hu with ⟨-, rfl, rfl⟩ | ⟨-, hu⟩
    · exact h.pending t cu pc ht (hsame ▸ hp)
    · exact h.pending u cu pcu hu hp
  · intro e he
    rw [hnofail]
    exact h.failed e he
  · intro s hs
    rw [hnofail] at hs
    refine ⟨Nat.lt_succ_of_lt (h.failedPast s hs).1, ?_⟩
    intro u cu pcu hu hcs
    rcases move_cases hu with ⟨-, rfl, rfl⟩ | ⟨-, hu⟩
    · exact hsame ▸ (h.failedPast s hs).2 t cu pc ht hcs
    · exact (h.failedPast s hs).2 u cu pcu hu hcs

/-- The step at which a call takes effect. -/
theorem History.effect_step {r : Ret} {ok : Bool} (h : History σ V log) (ht : σ.thread t = some (c, pc))
    (hok : ok = !(code c.op pc).mallocFails ao) (hnone : pc.effect = none) (hr : pc'.effect = some r)
    (htakes : Takes ok c.op V V' r) :
    History (σ.move t c pc ao m' pc') V' (log ++ [⟨c, r, ok, σ.now⟩]) := by
  obtain ⟨hret, hentries⟩ := htakes _ h.entries
  have hfresh := h.pending t c pc ht hnone
  have hnotfailed : c.start ∉ σ.failed := fun hs => (h.failedPast _ hs).2 t c pc ht rfl hnone
  have hfailed : ∀ s, s ∈ (σ.move t c pc ao m' pc').failed ↔ s ∈ σ.failed ∨ (s = c.start ∧ ok = false) := by
    intro s
    simp only [State.move, hok]
    split_ifs with hf
    · simp [hf, or_comm]
    · simp [hf]
  refine ⟨legal_snoc h.legal hret, by rw [mapOf_snoc]; exact hentries, ?_, ?_, ?_, ?_, ?_, ?_, ?_, ?_,
    fun u cu pcu hu => Nat.lt_succ_of_lt (h.move_started ht hu),
    fun u v cu cv pcu pcv hu hv hs => h.move_apart ht hu hv hs, ?_, ?_⟩
  · refine List.pairwise_append.mpr ⟨h.sorted, by simp, ?_⟩
    intro e he e' he'
    obtain rfl := List.mem_singleton.mp he'
    exact h.past e he
  · intro e he
    rcases List.mem_append.mp he with he | he
    · exact Nat.lt_succ_of_lt (h.past e he)
    · obtain rfl := List.mem_singleton.mp he
      exact Nat.lt_succ_self _
  · intro e he
    rcases List.mem_append.mp he with he | he
    · exact h.began e he
    · obtain rfl := List.mem_singleton.mp he
      exact h.started t c pc ht
  · refine List.pairwise_append.mpr ⟨h.once, by simp, ?_⟩
    intro e he e' he'
    obtain rfl := List.mem_singleton.mp he'
    exact hfresh e he
  · intro u cu pcu r' hu hr'
    rcases move_cases hu with ⟨-, rfl, rfl⟩ | ⟨-, hu⟩
    · exact ⟨_, List.mem_append_right _ (List.mem_singleton_self _), rfl, Option.some.inj (hr.symm.trans hr')⟩
    · obtain ⟨e, he, h'⟩ := h.effect u cu pcu r' hu hr'
      exact ⟨e, List.mem_append_left _ he, h'⟩
  · intro u cu pcu hu hp e he
    rcases move_cases hu with ⟨-, rfl, rfl⟩ | ⟨hut, hu⟩
    · simp [hr] at hp
    · rcases List.mem_append.mp he with he | he
      · exact h.pending u cu pcu hu hp e he
      · obtain rfl := List.mem_singleton.mp he
        exact fun hs => hut (h.apart u t cu c pcu pc hu ht hs.symm)
  · intro d hd
    obtain ⟨e, he, h'⟩ := h.completed d hd
    exact ⟨e, List.mem_append_left _ he, h'⟩
  · intro e he
    rcases List.mem_append.mp he with he | he
    · exact h.move_known ht (fun r' hr' => by simp [hnone] at hr') he
    · obtain rfl := List.mem_singleton.mp he
      exact .inr ⟨t, pc', by simp [State.move], hr⟩
  · intro e he
    rw [hfailed]
    rcases List.mem_append.mp he with he | he
    · rw [h.failed e he]
      simp [hfresh e he]
    · obtain rfl := List.mem_singleton.mp he
      simp [hnotfailed]
  · intro s hs
    rcases (hfailed s).mp hs with hs | ⟨rfl, -⟩
    · refine ⟨Nat.lt_succ_of_lt (h.failedPast s hs).1, ?_⟩
      intro u cu pcu hu hcs
      rcases move_cases hu with ⟨-, rfl, rfl⟩ | ⟨-, hu⟩
      · simp [hr]
      · exact (h.failedPast s hs).2 u cu pcu hu hcs
    · refine ⟨Nat.lt_succ_of_lt (h.started t c pc ht), ?_⟩
      intro u cu pcu hu hcs
      rcases move_cases hu with ⟨-, -, rfl⟩ | ⟨hut, hu⟩
      · simp [hr]
      · exact absurd (h.apart u t cu c pcu pc hu ht hcs) hut

end

/-- The invariant and the history. -/
def Explained (σ : State) : Prop := ∃ V log, Inv σ V ∧ History σ V log

theorem step_explained {σ σ' : State} (hs : Step σ σ') (h : Explained σ) : Explained σ' := by
  obtain ⟨V, log, hi, hh⟩ := h
  cases hs with
  | call t op ht => exact ⟨V, log, hi.call_step ht, hh.call_step ht⟩
  | run t c pc ao m' pc' ht he =>
    obtain ⟨V', hi', ⟨rfl, hsame⟩ | ⟨hnone, r, hr, htakes⟩⟩ := hi.run_step ht he
    · exact ⟨V', log, hi', hh.quiet_step ht he hsame⟩
    · refine ⟨V', _, hi', hh.effect_step ht rfl hnone hr (htakes _ (fun hf => by simp [hf]) ?_)⟩
      intro ha
      cases pc <;> first | rfl | simp [Pc.allocated] at ha
  | ret t c r ht => exact ⟨V, log, hi.ret_step ht, hh.ret_step ht⟩

/-- **Serializability.** In every reachable state there is an order of all calls that have
returned, and of some that are in progress, which respects real time (no call comes after
one that began only after it had returned), such that the same calls run one at a time,
through the same code, in this order, with the same outcomes of `malloc`, all return, and
return the same; and when no call is in progress, with the same contents of the tree. -/
theorem bst_serializable {σ : State} (hσ : Reachable σ) : ∃ order : List (Call × Ret),
    (order.map fun p => p.1.start).Nodup ∧
    (∀ p ∈ order, (∃ d ∈ σ.completed, d.call = p.1 ∧ d.ret = p.2) ∨ ∃ t pc, σ.thread t = some (p.1, pc)) ∧
    (∀ d ∈ σ.completed, (d.call, d.ret) ∈ order) ∧
    (order.Pairwise fun p p' => ∀ d ∈ σ.completed, d.call = p'.1 → ¬ d.finish < p.1.start) ∧
    ∀ M : Malloc, ∃ fuel m',
      (∀ n, fuel ≤ n → runCalls M n (order.map fun p => (p.1.op, decide (p.1.start ∉ σ.failed))) bstInit =
        some (m', order.map Prod.snd)) ∧
      ((∀ t, σ.thread t = none) → ∃ l, σ.mem.Contents l ∧ m'.Contents l) := by
  obtain ⟨V, log, hi, hh⟩ : Explained σ :=
    run_inv (I := Explained) (fun _ _ hs h => step_explained hs h) hσ ⟨.leaf, [], inv_init, history_init⟩
  have hreq : (log.map fun e => (e.call, e.ret)).map (fun p => (p.1.op, decide (p.1.start ∉ σ.failed))) =
      log.map Entry.request := by
    rw [List.map_map]
    apply List.map_congr_left
    intro e he
    have := hh.failed e he
    cases hok : e.ok <;> simp_all [Entry.request]
  have hnodup : (log.map fun e => e.call.start).Nodup := by
    rw [List.Nodup, List.pairwise_map]
    exact hh.once
  have hinj := List.inj_on_of_nodup_map hnodup
  refine ⟨log.map fun e => (e.call, e.ret), by rw [List.map_map]; exact hnodup, ?_, ?_, ?_, ?_⟩
  · intro p hp
    obtain ⟨e, he, rfl⟩ := List.mem_map.mp hp
    rcases hh.known e he with h' | ⟨t, pc, ht, -⟩
    · exact .inl h'
    · exact .inr ⟨t, pc, ht⟩
  · intro d hd
    obtain ⟨e, he, h₁, h₂, -⟩ := hh.completed d hd
    exact List.mem_map.mpr ⟨e, he, by rw [h₁, h₂]⟩
  · rw [List.pairwise_map]
    refine hh.sorted.imp_of_mem fun {e e'} he he' htime d hd hcall hlt => ?_
    -- the later call took effect before it returned, and the earlier one after it began
    obtain ⟨e'', he'', h₁, -, h₂⟩ := hh.completed d hd
    obtain rfl : e'' = e' := hinj he'' he' (by rw [h₁, hcall])
    have h₃ := hh.began e he
    dsimp only at hlt
    omega
  · intro M
    obtain ⟨fuel, m', V', hrun, hb, hD⟩ := between_init.runAll entries_leaf M (log.map Entry.request)
    refine ⟨fuel, m', ?_, fun hidle => ⟨V.toList, ⟨V, hi.spells hidle, rfl⟩, V', hb.inv.spells fun _ => rfl, ?_⟩⟩
    · intro n hn
      rw [hreq, hrun n hn, hh.legal, List.map_map]
      rfl
    · exact hi.valid.toList_eq hb.inv.valid fun q => by rw [hD q.1 q.2, hh.entries q.1 q.2]; rfl

/-- A lookup that begins before an insert of its key and returns after it. -/
def lookupSchedule : List Move :=
  [.call 0 (.insert 5 7), .call 1 (.lookup 5)] ++ List.replicate 5 (.run 0 (some 3)) ++ [.ret 0] ++
    List.replicate 8 (.run 1 none) ++ [.ret 1]

theorem bst_serializable_lookup : ∃ (σ : State) (order : List (Call × Ret)), Reachable σ ∧
    σ.completed.map Done.ret = [.found 7, .ok] ∧
    (∀ d ∈ σ.completed, (d.call, d.ret) ∈ order) ∧ ∀ M : Malloc, ∃ fuel m',
      runCalls M fuel (order.map fun p => (p.1.op, decide (p.1.start ∉ σ.failed))) bstInit =
        some (m', order.map Prod.snd) := by
  obtain ⟨σ, hσ, hd⟩ : ∃ σ, init.play lookupSchedule = some σ ∧ σ.completed.map Done.ret = [.found 7, .ok] :=
    ⟨_, rfl, rfl⟩
  obtain ⟨order, -, -, h₁, -, h₂⟩ := bst_serializable (steps_of_play hσ)
  refine ⟨σ, order, steps_of_play hσ, hd, h₁, ?_⟩
  intro M
  obtain ⟨fuel, m', hrun, -⟩ := h₂ M
  exact ⟨fuel, m', hrun fuel (Nat.le_refl _)⟩

end SdeSystems.Bst
