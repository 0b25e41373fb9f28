import SdeSystems.Inodes.Rest

/-!
# What the system calls on files keep

Processes make any calls on files side by side (`kernel`). As long as nobody looks up `..` in a directory that has been
removed, no operation panics but for want of an inode, of an entry in the cache or of room in a directory (`no_panic`);
whenever all processes are between two calls, the reference counts are those of the current directories and the open
files, and nobody holds a lock (`rests_again`); a process keeps the inodes that it uses, whatever the others do (`in_use_stays`); and the names
form a tree (`names_form_tree`). Processes that wait for each other's locks do so for ever (`waits_forever`), and calls
come to that: `open` and `unlink` of the same name side by side, or `link("a", ".")` alone.
-/

namespace SdeSystems.Inodes

open Function Relation Lib Names

variable {ι : Type} {n m : ℕ} {s s' : State ι n m} {T : ι → Tokens n m} {t t' : Tokens n m}
  {oh : Fin m → Option (Handle n)} {p q : ι} {i j : Fin n} {h : Handle n} {b : ι → Proc n m}

/-! ### Runs -/

/-- It does not look up `..`. -/
def Op.calm : Op n m → Bool
  | .dirlookup _ name => name != dotdot
  | _ => true

theorem not_stale_of_calm (o : Op n m) (s : State ι n m) (ho : o.calm = true) : ¬ Stale o s := by
  cases o
  case dirlookup dp name =>
    rintro ⟨rfl, -⟩
    cases ho
  all_goals exact id

/-- A process is between two calls. -/
def Kernel.rests (P : Kernel ι n m) (p : ι) : Bool :=
  match P.prog p with
  | .ret _ => true
  | .op _ _ => false

/-- What a process is between two calls. -/
def Kernel.proc (P : Kernel ι n m) (p : ι) : Proc n m :=
  match P.prog p with
  | .ret b => b
  | .op _ _ => .dead

theorem proc_of_rests {P : Kernel ι n m} (hp : P.rests p = true) : P.prog p = .ret (P.proc p) := by
  unfold Kernel.rests at hp
  unfold Kernel.proc
  cases hprog : P.prog p with
  | ret b => rfl
  | op o k =>
    rw [hprog] at hp
    cases hp

section

variable [DecidableEq ι]

/-- The state that a run starts in: all processes are between two calls. -/
def Kernel.start (s : State ι n m) (b : ι → Proc n m) : Kernel ι n m := ⟨s, fun p => .ret (b p)⟩

/-- `P` is a state of a run where nobody looks up `..` in a removed directory. -/
def Reached (s : State ι n m) (b : ι → Proc n m) (P : Kernel ι n m) : Prop :=
  ReflTransGen (kernel Stale).Step (Kernel.start s b) P

/-- A turn of a process. -/
inductive Turn (ι : Type)
  /-- It makes a call. -/
  | call (p : ι) (c : SysCall)
  /-- It does so many operations, or what there is until it has to wait. -/
  | ops (p : ι) (count : ℕ)
  /-- The end of its `fork`, whose child takes the free process. -/
  | fork (p child : ι)

/-- The next operations of a process. -/
def Kernel.ops (ok : Op n m → Bool) (p : ι) : ℕ → Kernel ι n m → Kernel ι n m
  | 0, P => P
  | count + 1, P =>
    match P.prog p with
    | .ret _ => P
    | .op o k =>
      if ok o then
        match exec p o P.shared with
        | .done r s => Kernel.ops ok p count ⟨s, update P.prog p (k r)⟩
        | _ => P
      else P

/-- A process makes a call. -/
def Kernel.call (P : Kernel ι n m) (p : ι) (c : SysCall) : Kernel ι n m :=
  match P.prog p with
  | .ret (.user u) => ⟨P.shared, update P.prog p (c.code u)⟩
  | _ => P

/-- A process is at the end of `fork`. -/
def Kernel.child (P : Kernel ι n m) (p q : ι) : Kernel ι n m :=
  match P.prog p, P.prog q with
  | .ret (.forked u v), .ret .dead =>
    if p = q then P else ⟨P.shared, update (update P.prog p (.ret (.user u))) q (.ret (.user v))⟩
  | _, _ => P

/-- One turn. -/
def Kernel.turn (ok : Op n m → Bool) (P : Kernel ι n m) : Turn ι → Kernel ι n m
  | .call p c => P.call p c
  | .ops p count => P.ops ok p count
  | .fork p q => P.child p q

/-- A step that no other process takes part in. -/
def StepOf (bars : Op n m → State ι n m → Prop) (p : ι) (P P' : Kernel ι n m) : Prop :=
  (kernel bars).Step P P' ∧ ∀ q ≠ p, P'.prog q = P.prog q

section

variable {bars : Op n m → State ι n m → Prop} {ok : Op n m → Bool}

theorem call_steps (P : Kernel ι n m) (p : ι) (c : SysCall) : ReflTransGen (StepOf bars p) P (P.call p c) := by
  unfold Kernel.call
  split
  · exact .single ⟨.start ‹_› ⟨_, c, rfl, rfl⟩, fun q hq => update_of_ne hq _ _⟩
  · exact .refl

theorem ops_steps (hok : ∀ o s, ok o = true → ¬ bars o s) (p : ι) (count : ℕ) (P : Kernel ι n m) :
    ReflTransGen (StepOf bars p) P (P.ops ok p count) := by
  induction count generalizing P with
  | zero => exact .refl
  | succ count ih =>
    unfold Kernel.ops
    cases hp : P.prog p with
    | ret b => exact .refl
    | op o k =>
      dsimp only
      by_cases ho : ok o = true
      · rw [if_pos ho]
        cases he : exec p o P.shared with
        | done r s => exact .head ⟨.op hp (hok o P.shared ho) he, fun q hq => update_of_ne hq _ _⟩ (ih _)
        | wait => exact .refl
        | panic e => exact .refl
      · rw [if_neg ho]

/-- **Turns are steps.** -/
theorem turns_run (hok : ∀ o s, ok o = true → ¬ bars o s) (turns : List (Turn ι)) (P : Kernel ι n m) :
    ReflTransGen (kernel bars).Step P (turns.foldl (Kernel.turn ok) P) := by
  induction turns generalizing P with
  | nil => exact .refl
  | cons turn turns ih =>
    refine .trans ?_ (ih _)
    cases turn with
    | call p c => exact ReflTransGen.mono (fun _ _ h => And.left h) _ _ (call_steps P p c)
    | ops p count => exact ReflTransGen.mono (fun _ _ h => And.left h) _ _ (ops_steps hok p count P)
    | fork p q =>
      change ReflTransGen _ P (P.child p q)
      unfold Kernel.child
      split
      · split_ifs with hpq
        · exact .refl
        · exact .single (.meet hpq ‹_› ‹_› .fork)
      · exact .refl

end

/-- The state after these turns, from the start of the first process. -/
def after (n m ninodes : ℕ) (turns : List (Turn Bool)) : Kernel Bool (n + 1) m :=
  turns.foldl (Kernel.turn Op.calm) (Kernel.start (boot ninodes) (initproc false))

theorem after_reached (n m ninodes : ℕ) (turns : List (Turn Bool)) :
    Reached (boot ninodes) (initproc false) (after n m ninodes turns) :=
  turns_run not_stale_of_calm turns _

/-- The next operation of the process panics so. -/
def Kernel.panics (P : Kernel ι n m) (p : ι) (e : Panic) : Bool :=
  match P.prog p with
  | .ret _ => false
  | .op o _ =>
    match exec p o P.shared with
    | .panic e' => e' == e
    | _ => false

theorem panic_of_panics {P : Kernel ι n m} {e : Panic} (hp : P.panics p e = true) :
    ∃ o k, P.prog p = .op o k ∧ exec p o P.shared = .panic e := by
  unfold Kernel.panics at hp
  cases hprog : P.prog p with
  | ret b =>
    rw [hprog] at hp
    cases hp
  | op o k =>
    rw [hprog] at hp
    dsimp only at hp
    refine ⟨o, k, rfl, ?_⟩
    cases he : exec p o P.shared with
    | done r s =>
      rw [he] at hp
      cases hp
    | wait =>
      rw [he] at hp
      cases hp
    | panic e' =>
      rw [he] at hp
      rw [eq_of_beq hp]

/-- The process waits for the lock of an inode that another one has. -/
def Waits (P : Kernel ι n m) (p q : ι) (i : Fin n) : Prop :=
  (∃ k, P.prog p = .op (.acquiresleep i) k) ∧ P.shared.lock i = some q

/-- `Waits`, computed. -/
def Kernel.waits (P : Kernel ι n m) (p q : ι) (i : Fin n) : Bool :=
  match P.prog p with
  | .op (.acquiresleep j) _ => j == i && P.shared.lock i == some q
  | _ => false

theorem waits_of_waits {P : Kernel ι n m} (hp : P.waits p q i = true) : Waits P p q i := by
  unfold Kernel.waits at hp
  split at hp
  · obtain ⟨hj, hq⟩ := (Bool.and_eq_true _ _).mp hp
    obtain rfl := eq_of_beq hj
    exact ⟨⟨_, ‹_›⟩, eq_of_beq hq⟩
  · cases hp

end

/-! ### What stays -/

section

variable [Fintype ι]

/-- The entry of the cache has the same inode in both states, and it is not freed. -/
def Stays (s s' : State ι n m) (i : Fin n) : Prop :=
  (s'.icache i).inum = (s.icache i).inum ∧
    (s'.disk (s'.icache i).inum).type = (s.disk (s.icache i).inum).type ∧ (s.disk (s.icache i).inum).type ≠ 0

theorem stays_of_has {T' : ι → Tokens n m} {oh' : Fin m → Option (Handle n)} (hI : Fits s T oh) (hI' : Fits s' T' oh')
    (hT : T' p = T p) (hh : (T p).Has i h) : Stays s s' i := by
  obtain ⟨-, hinum, htype, hne⟩ := hI.has hh
  obtain ⟨-, hinum', htype', -⟩ := hI'.has (hT ▸ hh)
  refine ⟨hinum'.trans hinum.symm, ?_, ?_⟩
  · rw [hinum', hinum, htype, htype']
  · rw [hinum, htype]
    exact hne

/-! ### `fork` -/

variable [DecidableEq ι]

/-- Two processes share out what they have. -/
theorem total_meet {α : Type} {g : Tokens n m → Multiset α} (hpq : p ≠ q) (hg : g t + g t' = g (T p) + g (T q)) :
    total (fun r => g (update (update T p t) q t' r)) = total fun r => g (T r) := by
  have hq := total_update_add (fun _ => g) (update T p t) q t'
  have hp := total_update_add (fun _ => g) T p t
  rw [update_of_ne hpq.symm] at hq
  have hsum : total (fun r => g (update (update T p t) q t' r)) + (g (T p) + g (T q)) =
      total (fun r => g (T r)) + (g (T p) + g (T q)) := by
    rw [← add_assoc, add_right_comm, hq, add_right_comm, hp, add_assoc, hg]
  exact add_right_cancel hsum

/-- Two processes without locks share out what they have. -/
theorem inv_meet {R R' R₁ R₂ : Multiset (Handle n)} {X X' X₁ X₂ : Multiset (Fin m × Handle n)} (hI : Inv s T)
    (hpq : p ≠ q) (hp : T p = idle R₁ 0 X₁) (hq : T q = idle R₂ 0 X₂) (hR : R + R' = R₁ + R₂) (hX : X + X' = X₁ + X₂) :
    Inv s (update (update T p (idle R 0 X)) q (idle R' 0 X')) := by
  obtain ⟨oh, hI⟩ := hI
  refine ⟨oh, ?_⟩
  generalize hU : update (update T p (idle R 0 X)) q (idle R' 0 X') = U
  have hUp : U p = idle R 0 X := by rw [← hU, update_of_ne hpq, update_self]
  have hUq : U q = idle R' 0 X' := by rw [← hU, update_self]
  have hother : ∀ r, r ≠ p → r ≠ q → U r = T r := by
    intro r hrp hrq
    rw [← hU, update_of_ne hrq, update_of_ne hrp]
  have hrefs : (total fun r => (U r).refs) = total fun r => (T r).refs := by
    rw [← hU]
    exact total_meet (g := Tokens.refs) hpq (by rw [hp, hq]; exact hR)
  have hfiles : (total fun r => (U r).files) = total fun r => (T r).files := by
    rw [← hU]
    exact total_meet (g := Tokens.files) hpq (by rw [hp, hq]; exact hX)
  -- nothing else changes hands
  have hsame : ∀ {β : Type} (g : Tokens n m → β), (∀ R R' X X', g (idle R 0 X) = g (idle R' 0 X')) →
      ∀ r, g (U r) = g (T r) := by
    intro β g hg r
    by_cases hrp : r = p
    · rw [hrp, hUp, hp, hg]
    · by_cases hrq : r = q
      · rw [hrq, hUq, hq, hg]
      · rw [hother r hrp hrq]
  have hgrips := hsame Tokens.grips fun _ _ _ _ => rfl
  have hfresh := hsame Tokens.fresh fun _ _ _ _ => rfl
  have hsees : ∀ {r i d}, (U r).Sees i d ↔ (T r).Sees i d := by
    intro r i d
    rw [Tokens.Sees, hgrips, Tokens.Sees]
  have hlocked : ∀ {r i}, (U r).grips i ≠ none → U r = T r := by
    intro r i hg
    refine hother r ?_ ?_
    · rintro rfl
      rw [hUp] at hg
      exact hg rfl
    · rintro rfl
      rw [hUq] at hg
      exact hg rfl
  constructor
  case refs =>
    rw [handles, hrefs, total_congr (hsame Tokens.gone fun _ _ _ _ => rfl)]
    exact hI.refs
  case files =>
    rw [hfiles, total_congr (hsame Tokens.blank fun _ _ _ _ => rfl)]
    exact hI.files
  case links =>
    rw [total_congr (hsame Tokens.credits fun _ _ _ _ => rfl)]
    exact hI.links
  case lock =>
    intro r i
    rw [hgrips]
    exact hI.lock r i
  case backed =>
    intro r i hg
    have heq := hlocked hg
    rw [heq] at hg ⊢
    exact hI.backed hg
  case sees => exact fun hd => hI.sees (hsees.mp hd)
  case sole =>
    intro r i d hg
    have heq := hlocked (r := r) (i := i) (by rw [hg]; exact Option.some_ne_none _)
    rw [heq] at hg ⊢
    exact hI.sole hg
  case copy =>
    intro i hi hv hg
    exact hI.copy hi hv fun r => hgrips r ▸ hg r
  case fresh =>
    intro r k type hf
    rw [hfresh] at hf
    obtain ⟨hdisk, htype, hothers, hopen⟩ := hI.fresh hf
    have hrp : p ≠ r := by
      rintro rfl
      rw [hp] at hf
      cases hf
    have hrq : q ≠ r := by
      rintro rfl
      rw [hq] at hf
      cases hf
    have hold : ∀ h ∈ R₁ + R₂, h.inum ≠ k := by
      intro h hh
      rcases Multiset.mem_add.mp hh with hh | hh
      · exact (hothers p hrp).1 h (by rw [hp]; exact hh)
      · exact (hothers q hrq).1 h (by rw [hq]; exact hh)
    refine ⟨hdisk, htype, fun r' hr' => ⟨?_, fun type' => hfresh r' ▸ (hothers r' hr').2 type'⟩, hopen⟩
    intro h hh
    by_cases hr'p : r' = p
    · rw [hr'p, hUp] at hh
      exact hold h (hR ▸ Multiset.mem_add.mpr (.inl hh))
    · by_cases hr'q : r' = q
      · rw [hr'q, hUq] at hh
        exact hold h (hR ▸ Multiset.mem_add.mpr (.inr hh))
      · rw [hother r' hr'p hr'q] at hh
        exact (hothers r' hr').1 h hh
  case dots =>
    intro k
    rcases hI.dots k with hd | ⟨r, type, hf⟩ | ⟨r, i, d, hd, hi⟩
    · exact .inl hd
    · exact .inr (.inl ⟨r, type, (hfresh r).trans hf⟩)
    · exact .inr (.inr ⟨r, i, d, hsees.mpr hd, hi⟩)

/-! ### The logic of the kernel -/

/-- The want of a free entry in the cache, of a free inode on the disk or of room in a directory. -/
def Full (e : Panic) : Prop := e = .igetNoInodes ∨ e = .iallocNoInodes ∨ e = .dirlink

/-- **The operations, the system calls and `fork` are right by their rules.** -/
def logic : Logic (kernel Stale : Rules ι (State ι n m) Panic (Op n m) Res (Proc n m)) (Tokens n m) where
  pre := pre
  post := post
  home := Home
  Inv := Inv
  panics := fun _ e => Full e
  done := fun hI hpre hb he => exec_done hI hpre hb he
  panic := fun hI hpre _ he => exec_panic hI hpre he
  start := by
    rintro b x t ht ⟨u, c, rfl, rfl⟩
    exact code_wp ht
  meet := by
    intro s T p q b c b' c' hpq hp hq hm hI
    cases hm with
    | fork =>
      generalize hTp : T p = tp at hp
      generalize hTq : T q = tq at hq
      cases hp with
      | @forked u v h x X Y hslot hX hchild hY =>
        cases hq with
        | dead =>
          refine ⟨_, _, .user hslot hX, .user hchild hY, inv_meet hI hpq hTp hTq ?_ ?_⟩
          · rw [add_zero, add_comm]
            rfl
          · rw [add_zero, add_comm]

/-! ### Main results -/

variable {P P' : Kernel ι n m}

theorem Reached.good (hP : Reached s b P) (hs : Rest s b) : logic.Good P := by
  obtain ⟨T, hI, hT⟩ := inv_of_rest hs
  exact logic.run hP ⟨T, hI, hT⟩

/-- It does panic where `..` is looked up in a removed directory: after `mkdir("a")`, `mkdir("a/b")`, `chdir("a/b")`,
`unlink("/a/b")` and `unlink("/a")` the call `open("..")` locks an inode that has been freed. -/
theorem panic_of_stale : ∃ P : Kernel Bool 5 2,
    ReflTransGen (kernel fun _ _ => False).Step (Kernel.start (boot 6) (initproc false)) P ∧
      ∃ o k, P.prog false = .op o k ∧ exec false o P.shared = .panic .ilockNoType := by
  let turns : List (Turn Bool) :=
    [.call false (.mkdir [97]), .ops false 99, .call false (.mkdir [97, 47, 98]), .ops false 99,
      .call false (.chdir [97, 47, 98]), .ops false 99, .call false (.unlink [47, 97, 47, 98]), .ops false 99,
      .call false (.unlink [47, 97]), .ops false 99, .call false (.openFile [46, 46] 0), .ops false 99]
  let P : Kernel Bool 5 2 := turns.foldl (Kernel.turn fun _ => true) (Kernel.start (boot 6) (initproc false))
  have hpanic : P.panics false .ilockNoType = true := by decide +kernel
  exact ⟨P, turns_run (fun _ _ _ => id) turns _, panic_of_panics hpanic⟩

/-- **Nothing is lost.** Whenever all processes are between two calls again, the reference counts are those of what
they use, no inode is cached twice, what is used is allocated, the links are counted, and nobody has a lock. -/
theorem rests_again {b' : ι → Proc n m} (hs : Rest s b) (hP : Reached s b P) (hb : ∀ p, P.prog p = .ret (b' p)) :
    Rest P.shared b' := by
  obtain ⟨T, hI, hT⟩ := hP.good hs
  refine rest_of_inv hI fun p => ?_
  have hhome := hT p
  rw [hb] at hhome
  exact hhome

/-- The first process has made a file, and has it open. -/
theorem rests_again_open :
    Rest (after 2 2 4 [.call false (.openFile [97] 0x200), .ops false 99]).shared
      (after 2 2 4 [.call false (.openFile [97] 0x200), .ops false 99]).proc :=
  rests_again (boot_rest false 4) (after_reached 2 2 4 _) fun _ => proc_of_rests (by decide +revert +kernel)

/-- **Who uses an inode keeps it.** As long as a process is between two calls, its current directory and the inodes of
its open files stay what they are and are not freed, whatever the others do. -/
theorem in_use_stays {c : Proc n m} (hs : Rest s b) (hP : Reached s b P) (hp : P.prog p = .ret c)
    (hrun : ReflTransGen (fun P P' => (kernel Stale).Step P P' ∧ P'.prog p = P.prog p) P P') :
    (∀ i ∈ c.cwds, Stays P.shared P'.shared i) ∧
      ∀ f ∈ c.files, ∃ i, (P.shared.ftable f).ip = some i ∧ (P'.shared.ftable f).ip = some i ∧
        Stays P.shared P'.shared i := by
  have hmeet : ∀ b c b' c' : Proc n m, Meets b c b' c' → b' ≠ b ∧ c' ≠ c := by
    rintro b c b' c' ⟨⟩
    exact ⟨nofun, nofun⟩
  obtain ⟨t, hhome, ⟨T, ⟨oh, hI⟩, hT⟩, T', ⟨oh', hI'⟩, hT'⟩ := logic.run_resting hmeet (hP.good hs) hp hrun
  obtain ⟨R, X, hidle, hR, hX⟩ := Home.uses hhome
  have hsame : T' p = T p := hT'.trans hT.symm
  refine ⟨?_, ?_⟩
  · intro i hi
    rw [← hR] at hi
    obtain ⟨h, hh, rfl⟩ := Multiset.mem_map.mp hi
    refine stays_of_has (h := h) hI hI' hsame ⟨rfl, .inl ?_⟩
    rw [hT, hidle]
    exact hh
  · intro f hf
    rw [← hX] at hf
    obtain ⟨⟨g, h⟩, hh, rfl⟩ := Multiset.mem_map.mp hf
    have hfile : (g, h) ∈ (T p).files := by
      rw [hT, hidle]
      exact hh
    refine ⟨h.slot, ?_, ?_, stays_of_has (h := h) hI hI' hsame ⟨rfl, .inr ⟨g, hfile⟩⟩⟩
    · rw [hI.files.ip, hI.files.share (mem_total.mpr ⟨p, hfile⟩)]
      rfl
    · rw [hI'.files.ip, hI'.files.share (mem_total.mpr ⟨p, hsame ▸ hfile⟩)]
      rfl

/-- The first process and its child, and the first has made the file `a` and has it open. -/
def opened : Kernel Bool 3 2 :=
  after 2 2 4 [.call false .fork, .ops false 99, .fork false true, .call false (.openFile [97] 0x200), .ops false 99]

/-- The child has unlinked it. -/
def unlinked : Kernel Bool 3 2 := (opened.call true (.unlink [97])).ops Op.calm true 99

/-- The file that the first process has open is still there. -/
theorem in_use_stays_unlinked : ∃ i, (opened.shared.ftable 0).ip = some i ∧ (unlinked.shared.ftable 0).ip = some i ∧
    Stays opened.shared unlinked.shared i :=
  (in_use_stays (boot_rest false 4) (after_reached 2 2 4 _) (proc_of_rests (P := opened) (by decide +kernel))
    (ReflTransGen.mono (fun _ _ h => And.imp_right (fun h => h false (by decide)) h) _ _
      ((call_steps opened true (.unlink [97])).trans (ops_steps not_stale_of_calm true 99 _)))).2 0 (by decide +kernel)

/-- The names form a tree. -/
structure Tree (disk : ℕ → Dinode) : Prop where
  /-- What has a name is allocated and has a link. -/
  named {d j k : ℕ} {name : Name} : Entry disk d j name k → IsName name →
    (disk d).type = tDir ∧ (disk k).type ≠ 0 ∧ 1 ≤ (disk k).nlink
  /-- A directory has one name at most, and its `..` is where that is. -/
  parent {d j k : ℕ} {name : Name} : Entry disk d j name k → IsName name → (disk k).type = tDir →
    (∃ j', Entry disk k j' dotdot d) ∧
      ∀ {e j' : ℕ} {name' : Name}, Entry disk e j' name' k → IsName name' → e = d ∧ j' = j
  /-- Names of directories lead down. -/
  depth : ∃ depth : ℕ → ℕ, ∀ {d j k : ℕ} {name : Name}, Entry disk d j name k → IsName name →
    (disk k).type = tDir → depth d < depth k

/-- **The names form a tree** in every state of a run. -/
theorem names_form_tree (hs : Rest s b) (hP : Reached s b P) : Tree P.shared.disk := by
  obtain ⟨T, ⟨oh, hI⟩, -⟩ := hP.good hs
  have hL := hI.links
  refine ⟨?_, fun he hname hdir => hL.parent he hname hdir, hL.depth⟩
  intro d j k name he hname
  have hlink := hL.one_le (counted_of_name he hname)
  exact ⟨hL.dirs he, hL.type_ne_zero hlink, hlink⟩

/-- The tree with the directory `a`. -/
theorem names_form_tree_mkdir : Tree (after 2 2 4 [.call false (.mkdir [97]), .ops false 99]).shared.disk :=
  names_form_tree (boot_rest false 4) (after_reached 2 2 4 _)

/-! ### Deadlock -/

/-- **Who waits for each other waits for ever**: where each process of a set waits for a lock that one of the set has,
no run takes any of them on. -/
theorem waits_forever {W : Set ι} (hs : Rest s b) (hP : Reached s b P) (hW : ∀ p ∈ W, ∃ q ∈ W, ∃ i, Waits P p q i)
    (hrun : ReflTransGen (kernel Stale).Step P P') : ∀ p ∈ W, P'.prog p = P.prog p := by
  obtain ⟨T, hI, hT⟩ : ∃ T, Inv P.shared T ∧ ∀ r, wp pre post (P.prog r) Home (T r) := hP.good hs
  -- a lock is taken and given back by who has it, and these do not move
  have hkeep : ∃ T', Inv P'.shared T' ∧ (∀ r, wp pre post (P'.prog r) Home (T' r)) ∧
      (∀ p ∈ W, P'.prog p = P.prog p) ∧ ∀ q ∈ W, ∀ i, P'.shared.lock i = some q ↔ P.shared.lock i = some q := by
    refine run_inv (I := fun Q => ∃ T', Inv Q.shared T' ∧ (∀ r, wp pre post (Q.prog r) Home (T' r)) ∧
      (∀ p ∈ W, Q.prog p = P.prog p) ∧ ∀ q ∈ W, ∀ i, Q.shared.lock i = some q ↔ P.shared.lock i = some q) ?_ hrun
      ⟨T, hI, hT, fun _ _ => rfl, fun _ _ _ => Iff.rfl⟩
    rintro Q Q' hstep ⟨T₁, hI₁, hT₁, hprog, hlock⟩
    obtain ⟨T₂, hI₂, hT₂, -, hwait⟩ := logic.step hstep hI₁ hT₁
    have hstay : ∀ p ∈ W, Q'.prog p = Q.prog p ∧ T₂ p = T₁ p := by
      intro p hp
      obtain ⟨q, hq, i, ⟨k, hk⟩, hi⟩ := hW p hp
      have hop : Q.prog p = .op (.acquiresleep i) k := (hprog p hp).trans hk
      have hblocked : exec p (.acquiresleep i) Q.shared = .wait := by
        simp only [exec, (hlock q hq i).mpr hi]
        rfl
      obtain ⟨hop', htokens⟩ := hwait p _ k hop hblocked
      exact ⟨hop'.trans hop.symm, htokens⟩
    obtain ⟨oh₁, hF₁⟩ := hI₁
    obtain ⟨oh₂, hF₂⟩ := id hI₂
    refine ⟨T₂, hI₂, hT₂, fun p hp => (hstay p hp).1.trans (hprog p hp), ?_⟩
    intro q hq i
    rw [hF₂.lock, (hstay q hq).2, ← hF₁.lock]
    exact hlock q hq i
  obtain ⟨-, -, -, hprog, -⟩ := hkeep
  exact hprog

/-- The turns of `open("a", O_CREATE)` and `unlink("a")` side by side. -/
def openAndUnlink : List (Turn Bool) :=
  [.call false .fork, .ops false 99, .fork false true, .call false (.openFile [97] 0x200), .ops false 22,
    .call true (.unlink [97]), .ops true 99, .ops false 99]

/-- `open("a", O_CREATE)` and `unlink("a")` side by side: `create` has the lock of the new inode while its
`iunlockput(dp)` waits for the lock of the directory, which `sys_unlink` has while it waits for the inode. -/
theorem open_unlink_waits_forever : ∃ P : Kernel Bool 3 2, Reached (boot 4) (initproc false) P ∧
    Waits P false true 0 ∧ Waits P true false 1 ∧
      ∀ P', ReflTransGen (kernel Stale).Step P P' → ∀ p ∈ Set.univ, P'.prog p = P.prog p := by
  have hP := after_reached 2 2 4 openAndUnlink
  have hopen : Waits (after 2 2 4 openAndUnlink) false true 0 := waits_of_waits (by decide +kernel)
  have hunlink : Waits (after 2 2 4 openAndUnlink) true false 1 := waits_of_waits (by decide +kernel)
  refine ⟨_, hP, hopen, hunlink, fun P' hrun => waits_forever (boot_rest false 4) hP ?_ hrun⟩
  intro p _
  cases p with
  | false => exact ⟨true, Set.mem_univ _, 0, hopen⟩
  | true => exact ⟨false, Set.mem_univ _, 1, hunlink⟩

/-- The turns of `link("a", ".")`, which is a call of one process. -/
def linkDot : List (Turn Bool) :=
  [.call false (.openFile [97] 0x200), .ops false 99, .call false (.link [97] [46]), .ops false 99]

/-- `link("a", ".")` waits for itself: `sys_link` has the lock of the directory when `dirlink` finds the `.` of it and
puts it. -/
theorem link_dot_waits : Waits (after 2 2 4 linkDot) false false 0 := waits_of_waits (by decide +kernel)

end

end SdeSystems.Inodes
