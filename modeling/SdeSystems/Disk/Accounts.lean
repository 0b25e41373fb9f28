import SdeSystems.Disk.Machine
import SdeSystems.Disk.Contents

/-!
# Whose blocks are whose

Whatever the processes do side by side, a block is in use where it is one of the disk's own or belongs to
exactly one file, and no file loses a block or gets one of another's (`Store.Inv`). So nothing leaks, and
`bfree` never panics.
-/

namespace SdeSystems.Disk

open Lib Function

variable {n : ℕ} {s s' : Store n} {vol : Volume} {sys : Set ℕ} {p : Fin n} {ip q i j k b m off tot x c : ℕ}
  {w : ℕ → UInt8} {t : Task}

/-- Block `i` of the file has not been given back. -/
def Store.Keeps (s : Store n) (ip i : ℕ) : Prop := i ≤ maxFile ∧ ∀ p k, s.task p = .free ip k → k ≤ i

/-- Nobody throws the file away. -/
def Store.Whole (s : Store n) (ip : ℕ) : Prop := ∀ p k, s.task p ≠ .free ip k

/-- The block is the file's. -/
def Store.Owns (s : Store n) (ip b : ℕ) : Prop :=
  s.type ip ≠ 0 ∧ b ≠ 0 ∧ ∃ i, s.Keeps ip i ∧ s.vol.slot ip i = b

/-- What a process is at. -/
def Task.Ok (v : Volume) : Task → Prop
  | .idle => True
  | .write ip _ off m tot =>
    (v.inodes ip).dev = none ∧ tot ≤ m ∧ off ≤ (v.inodes ip).size ∧ off + m ≤ maxFile * bsize ∧
      ∀ x, off ≤ x → x < off + tot → v.slot ip (x / bsize) ≠ 0
  | .read ip off m l got => (v.inodes ip).dev = none ∧ got.length ≤ l ∧ off ≤ (v.inodes ip).size ∧ off + m < 2 ^ 32 ∧
      l = min m ((v.inodes ip).size - off)
  | .free ip k => k ≤ maxFile + 1 ∧ (∀ i < ndirect, i < k → (v.inodes ip).addrs i = 0) ∧
      (maxFile < k → (v.inodes ip).addrs ndirect = 0) ∧ (ndirect < k → k ≤ maxFile → (v.inodes ip).addrs ndirect ≠ 0)

/-- A process works on the inode in memory, which is not yet the one on the disk. -/
def Task.Changes (v : Volume) (ip : ℕ) : Task → Prop
  | .write ip' _ off m _ => ip' = ip ∧ (v.inodes ip).size < off + m
  | .free ip' _ => ip' = ip
  | _ => False

/-- **The accounts of the disk.** `sys` are the blocks that belong to no file. -/
structure Store.Inv (sys : Set ℕ) (s : Store n) : Prop where
  /-- A file has one process that works on it. -/
  locks : ∀ p q ip, (s.task p).file = some ip → (s.task q).file = some ip → p = q
  /-- It is a file. -/
  alive : ∀ p ip, (s.task p).file = some ip → s.type ip ≠ 0
  /-- The processes. -/
  tasks : ∀ p, (s.task p).Ok s.vol
  /-- Block numbers are words. -/
  blocks : s.vol.blocks ≤ 2 ^ 32
  /-- The boot block. -/
  boot : 0 ∈ sys
  /-- The blocks in use are accounted for. -/
  accounted : ∀ b, s.vol.used b = true ↔ b ∈ sys ∨ ∃ ip, s.Owns ip b
  /-- A file's block is none of the disk's own. -/
  own : ∀ ip b, s.Owns ip b → b ∉ sys
  /-- The blocks of the files are different ones. -/
  apart : ∀ ip q, s.type ip ≠ 0 → s.type q ≠ 0 → ∀ i j, s.Keeps ip i → s.Keeps q j → s.vol.slot ip i ≠ 0 →
    s.vol.slot ip i = s.vol.slot q j → ip = q ∧ i = j
  /-- There is a block for all data. -/
  filled : ∀ ip, s.type ip ≠ 0 → s.Whole ip → ∀ i, bsize * i < (s.vol.inodes ip).size → s.vol.slot ip i ≠ 0
  /-- No file is longer than `MAXFILE` blocks. -/
  size : ∀ ip, s.type ip ≠ 0 → (s.vol.inodes ip).size ≤ maxFile * bsize
  /-- The inode on the disk is the one in memory, unless a process has changed it. -/
  synced : ∀ ip, s.type ip ≠ 0 → s.vol.dinodes ip = s.vol.inodes ip ∨ ∃ p, (s.task p).Changes s.vol ip

/-! ### One file -/

theorem Store.Inv.whole (hs : s.Inv sys) (hp : (s.task p).file = some ip) (hne : ∀ k, s.task p ≠ .free ip k) :
    s.Whole ip := by
  intro q k hq
  obtain rfl := hs.locks p q ip hp (by rw [hq]; rfl)
  exact hne k hq

theorem Store.Whole.keeps (h : s.Whole ip) (hi : i ≤ maxFile) : s.Keeps ip i := ⟨hi, fun p k hp => absurd hp (h p k)⟩

theorem Store.Inv.used_zero (hs : s.Inv sys) : s.vol.used 0 = true := (hs.accounted 0).mpr (.inl hs.boot)

theorem Store.Inv.used (hs : s.Inv sys) (hip : s.type ip ≠ 0) (hi : s.Keeps ip i) :
    s.vol.used (s.vol.slot ip i) = true := by
  by_cases hz : s.vol.slot ip i = 0
  · rw [hz]
    exact hs.used_zero
  · exact (hs.accounted _).mpr (.inr ⟨ip, hip, hz, i, hi, rfl⟩)

/-- A file that nobody throws away is in order. -/
theorem Store.Inv.ok (hs : s.Inv sys) (hip : s.type ip ≠ 0) (hw : s.Whole ip) : s.vol.Ok ip where
  blocks := hs.blocks
  boot := hs.used_zero
  used _ hi := hs.used hip (hw.keeps hi)
  apart i hi j hj hne heq := (hs.apart ip ip hip hip i j (hw.keeps hi) (hw.keeps hj) hne heq).2
  filled := hs.filled ip hip hw
  size := hs.size ip hip

/-- The table, where there is one, has not been given back. -/
theorem Store.Inv.keeps_table (hs : s.Inv sys) (hz : s.vol.slot ip maxFile ≠ 0) : s.Keeps ip maxFile := by
  refine ⟨le_rfl, ?_⟩
  intro p k hp
  have ht := hs.tasks p
  rw [hp] at ht
  by_contra hlt
  rw [slot_table] at hz
  exact hz (ht.2.2.1 (by omega))

/-! ### Another file -/

/-- Of the blocks in use some are new, and all those are the file's. -/
structure Claims (v v' : Volume) (ip : ℕ) : Prop where
  /-- The number of blocks. -/
  blocks : v'.blocks = v.blocks
  /-- The blocks in use. -/
  used : ∀ b, v'.used b = true → v.used b = true ∨ ∃ i ≤ maxFile, v'.slot ip i = b

section Other

variable (hs : s.Inv sys) (hip : s.type ip ≠ 0) (hw : s.Whole ip) (h : Wrote s.vol vol ip x c w) (hq : s.type q ≠ 0)
  (hne : q ≠ ip)

include hs hip hw h hq hne

theorem Store.Inv.other_block (hi : s.Keeps q i) (hz : s.vol.slot q i ≠ 0) : vol.used (s.vol.slot q i) = true ∧
    (∀ j ≤ maxFile, vol.slot ip j ≠ s.vol.slot q i) ∧ vol.data (s.vol.slot q i) = s.vol.data (s.vol.slot q i) :=
  h.frame _ (hs.used hq hi) fun j hj heq => hne (hs.apart q ip hq hip i j hi (hw.keeps hj) hz heq.symm).1

theorem Store.Inv.other_slot : vol.slot q i = s.vol.slot q i :=
  slot_congr (h.others q hne) fun hz => (hs.other_block hip hw h hq hne (hs.keeps_table hz) hz).2.2

end Other

/-! ### What does not matter -/

theorem Task.Ok.congr {v v' : Volume} (h : t.Ok v) (hin : ∀ q, t.file = some q → v'.inodes q = v.inodes q)
    (hslot : ∀ q, t.file = some q → ∀ i, v.slot q i ≠ 0 → v'.slot q i ≠ 0) : t.Ok v' := by
  cases t with
  | idle => trivial
  | write ip src off m tot =>
    simp only [Task.Ok] at h ⊢
    rw [hin ip rfl]
    exact ⟨h.1, h.2.1, h.2.2.1, h.2.2.2.1, fun x hx hx' => hslot ip rfl _ (h.2.2.2.2 x hx hx')⟩
  | read ip off m l got =>
    simp only [Task.Ok] at h ⊢
    rw [hin ip rfl]
    exact h
  | free ip k =>
    simp only [Task.Ok] at h ⊢
    rw [hin ip rfl]
    exact h

theorem Task.Changes.file {v : Volume} (h : t.Changes v ip) : t.file = some ip := by
  cases t with
  | write ip' src off m tot => exact congrArg some h.1
  | free ip' k => exact congrArg some h
  | idle => exact h.elim
  | read => exact h.elim

theorem Task.Changes.congr {v v' : Volume} (h : t.Changes v ip) (hsize : (v'.inodes ip).size = (v.inodes ip).size) :
    t.Changes v' ip := by
  cases t with
  | write ip' src off m tot =>
    simp only [Task.Changes] at h ⊢
    rwa [hsize]
  | free ip' k => exact h
  | idle => exact h
  | read => exact h

/-- A process that has thrown nothing away, before and after. -/
theorem Store.keeps_update (h : ∀ k, s.task p ≠ .free ip k) (ht : ∀ k, t = .free ip k → k = 0) (v : Volume) :
    Store.Keeps { s with vol := v, task := update s.task p t } ip i ↔ s.Keeps ip i := by
  refine and_congr_right fun _ => ?_
  constructor
  · intro hall q k hq
    refine hall q k ?_
    dsimp only
    rw [update_of_ne, hq]
    rintro rfl
    exact h k hq
  · intro hall q k hq
    dsimp only at hq
    by_cases hqp : q = p
    · subst hqp
      rw [update_self] at hq
      rw [ht k hq]
      exact Nat.zero_le _
    · rw [update_of_ne hqp] at hq
      exact hall q k hq

/-! ### A file grows -/

/-- **A turn of `writei`** keeps the accounts: the new blocks were free and are the file's. -/
theorem Store.Inv.grown {src : ℕ → UInt8} (tot' : ℕ) (hs : s.Inv sys) (hp : s.task p = .write ip src off m tot)
    (h : Wrote s.vol vol ip x c w) (hc : Claims s.vol vol ip) (ht : (Task.write ip src off m tot').Ok vol)
    (hsync : vol.inodes ip = s.vol.inodes ip ∨ (s.vol.inodes ip).size < off + m) :
    Store.Inv sys { s with vol := vol, task := update s.task p (.write ip src off m tot') } := by
  have hip : s.type ip ≠ 0 := hs.alive p ip (by rw [hp]; rfl)
  have hw : s.Whole ip := hs.whole (by rw [hp]; rfl) fun k hk => by rw [hp] at hk; cases hk
  have hkeeps (q i : ℕ) : Store.Keeps { s with vol := vol, task := update s.task p (.write ip src off m tot') } q i ↔
      s.Keeps q i := Store.keeps_update (fun k hk => by rw [hp] at hk; cases hk) (fun k hk => by cases hk) vol
  have hfile (q : Fin n) : (update s.task p (.write ip src off m tot') q).file = (s.task q).file := by
    by_cases hq : q = p
    · subst hq
      rw [update_self, hp]
      rfl
    · rw [update_of_ne hq]
  have hother {q : ℕ} (hq : s.type q ≠ 0) (hne : q ≠ ip) (i : ℕ) : vol.slot q i = s.vol.slot q i :=
    hs.other_slot hip hw h hq hne
  have howns (b : ℕ) : Store.Owns { s with vol := vol, task := update s.task p (.write ip src off m tot') } ip b ↔
      b ≠ 0 ∧ ∃ i ≤ maxFile, vol.slot ip i = b := by
    simp only [Store.Owns, hkeeps]
    refine ⟨fun ⟨_, hb, i, hi, hib⟩ => ⟨hb, i, hi.1, hib⟩, fun ⟨hb, i, hi, hib⟩ => ⟨hip, hb, i, hw.keeps hi, hib⟩⟩
  have howns' {q : ℕ} (hne : q ≠ ip) (b : ℕ) :
      Store.Owns { s with vol := vol, task := update s.task p (.write ip src off m tot') } q b ↔ s.Owns q b := by
    simp only [Store.Owns, hkeeps]
    refine and_congr_right fun hq => ?_
    simp only [hother hq hne]
  -- The blocks in use that are not the file's are those that were.
  have hused (b : ℕ) (hb : s.vol.used b = true) : vol.used b = true := by
    by_cases hown : ∃ i ≤ maxFile, s.vol.slot ip i = b
    · obtain ⟨i, hi, rfl⟩ := hown
      by_cases hz : s.vol.slot ip i = 0
      · rw [hz]
        exact h.ok.boot
      · rw [← h.slot i hi hz]
        exact h.ok.used i hi
    · exact (h.frame b hb fun i hi hib => hown ⟨i, hi, hib⟩).1
  refine ⟨?_, ?_, ?_, hc.blocks ▸ hs.blocks, hs.boot, ?_, ?_, ?_, ?_, ?_, ?_⟩
  · intro a b q ha hb
    dsimp only at ha hb
    rw [hfile] at ha hb
    exact hs.locks a b q ha hb
  · intro a q ha
    dsimp only at ha
    rw [hfile] at ha
    exact hs.alive a q ha
  · intro a
    dsimp only
    by_cases ha : a = p
    · subst ha
      rw [update_self]
      exact ht
    · rw [update_of_ne ha]
      have hne (q : ℕ) (hq : (s.task a).file = some q) : q ≠ ip := by
        rintro rfl
        exact ha (hs.locks a p q hq (by rw [hp]; rfl))
      refine (hs.tasks a).congr (fun q hq => h.others q (hne q hq)) ?_
      intro q hq i hi
      rwa [hother (hs.alive a q hq) (hne q hq)]
  · intro b
    dsimp only
    constructor
    · intro hb
      rcases hc.used b hb with hb | hb
      · rcases (hs.accounted b).mp hb with hb | ⟨q, hq⟩
        · exact .inl hb
        · by_cases hqp : q = ip
          · subst hqp
            obtain ⟨-, hb0, i, hi, rfl⟩ := hq
            exact .inr ⟨q, (howns _).mpr ⟨hb0, i, hi.1, h.slot i hi.1 hb0⟩⟩
          · exact .inr ⟨q, (howns' hqp b).mpr hq⟩
      · by_cases hb0 : b = 0
        · rw [hb0]
          exact .inl hs.boot
        · exact .inr ⟨ip, (howns b).mpr ⟨hb0, hb⟩⟩
    · rintro (hb | ⟨q, hq⟩)
      · exact hused b ((hs.accounted b).mpr (.inl hb))
      · by_cases hqp : q = ip
        · subst hqp
          obtain ⟨-, i, hi, rfl⟩ := (howns b).mp hq
          exact h.ok.used i hi
        · exact hused b ((hs.accounted b).mpr (.inr ⟨q, (howns' hqp b).mp hq⟩))
  · intro q b hq hb
    by_cases hqp : q = ip
    · subst hqp
      obtain ⟨hb0, i, hi, rfl⟩ := (howns b).mp hq
      -- A block of the disk's own is in use, and stays no file's.
      refine (h.frame _ ((hs.accounted _).mpr (.inl hb)) ?_).2.1 i hi rfl
      intro j hj hjb
      exact hs.own q _ ⟨hip, hb0, j, hw.keeps hj, hjb⟩ hb
    · exact hs.own q b ((howns' hqp b).mp hq) hb
  · intro a q ha hq i j hi hj hz heq
    rw [hkeeps] at hi hj
    dsimp only at ha hq hz heq
    by_cases hap : a = ip
    · subst hap
      by_cases hqp : q = a
      · subst hqp
        exact ⟨rfl, h.ok.apart i hi.1 j hj.1 hz heq⟩
      · rw [hother hq hqp] at heq
        have hz' : s.vol.slot q j ≠ 0 := heq ▸ hz
        exact absurd heq ((hs.other_block hip hw h hq hqp hj hz').2.1 i hi.1)
    · rw [hother ha hap] at hz heq
      by_cases hqp : q = ip
      · subst hqp
        exact absurd heq.symm ((hs.other_block hip hw h ha hap hi hz).2.1 j hj.1)
      · rw [hother hq hqp] at heq
        exact hs.apart a q ha hq i j hi hj hz heq
  · intro q hq hwq i hi
    dsimp only at hq hi ⊢
    by_cases hqp : q = ip
    · subst hqp
      exact h.ok.filled i hi
    · rw [h.others q hqp] at hi
      rw [hother hq hqp]
      refine hs.filled q hq ?_ i hi
      intro a k ha
      refine hwq a k ?_
      dsimp only
      rw [update_of_ne, ha]
      rintro rfl
      rw [hp] at ha
      cases ha
  · intro q hq
    dsimp only
    by_cases hqp : q = ip
    · subst hqp
      exact h.ok.size
    · rw [h.others q hqp]
      exact hs.size q hq
  · intro q hq
    dsimp only
    rw [h.dinodes]
    have hchanges (a : Fin n) (ha : (s.task a).Changes s.vol q) :
        (update s.task p (.write ip src off m tot') a).Changes vol q := by
      by_cases hap : a = p
      · subst hap
        rw [hp] at ha
        rw [update_self]
        obtain ⟨rfl, ha⟩ := ha
        exact ⟨rfl, by rwa [h.size]⟩
      · rw [update_of_ne hap]
        refine ha.congr ?_
        by_cases hqp : q = ip
        · rw [hqp, h.size]
        · rw [h.others q hqp]
    by_cases hqp : q = ip
    · subst hqp
      rcases hsync with hsame | hlong
      · rw [hsame]
        exact (hs.synced q hq).imp_right fun ⟨a, ha⟩ => ⟨a, hchanges a ha⟩
      · refine .inr ⟨p, ?_⟩
        rw [update_self]
        exact ⟨rfl, by rwa [h.size]⟩
    · rw [h.others q hqp]
      exact (hs.synced q hq).imp_right fun ⟨a, ha⟩ => ⟨a, hchanges a ha⟩

/-! ### A file is thrown away -/

theorem Store.Inv.keeps_free (hs : s.Inv sys) (hp : s.task p = .free ip k) : s.Keeps ip i ↔ i ≤ maxFile ∧ k ≤ i := by
  refine and_congr_right fun _ => ⟨fun h => h p k hp, ?_⟩
  intro h q k' hq
  obtain rfl := hs.locks p q ip (by rw [hp]; rfl) (by rw [hq]; rfl)
  rw [hp] at hq
  cases hq
  exact h

/-- **A turn of `itrunc`** keeps the accounts: the blocks before `k'` are free and no longer the file's. -/
theorem Store.Inv.gave {k' : ℕ} (hs : s.Inv sys) (hp : s.task p = .free ip k) (hlt : k < k')
    (hblocks : vol.blocks = s.vol.blocks) (hdata : vol.data = s.vol.data) (hdinodes : vol.dinodes = s.vol.dinodes)
    (hothers : ∀ q ≠ ip, vol.inodes q = s.vol.inodes q) (hsize : (vol.inodes ip).size = (s.vol.inodes ip).size)
    (ht : (Task.free ip k').Ok vol) (hslot : ∀ i ≤ maxFile, k' ≤ i → vol.slot ip i = s.vol.slot ip i)
    (hused : ∀ b, vol.used b = true ↔
      s.vol.used b = true ∧ ¬ (b ≠ 0 ∧ ∃ i ≤ maxFile, k ≤ i ∧ i < k' ∧ s.vol.slot ip i = b)) :
    Store.Inv sys { s with vol := vol, task := update s.task p (.free ip k') } := by
  have hip : s.type ip ≠ 0 := hs.alive p ip (by rw [hp]; rfl)
  have hfile (q : Fin n) : (update s.task p (.free ip k') q).file = (s.task q).file := by
    by_cases hq : q = p
    · subst hq
      rw [update_self, hp]
      rfl
    · rw [update_of_ne hq]
  have hkeeps (i : ℕ) : Store.Keeps { s with vol := vol, task := update s.task p (.free ip k') } ip i ↔
      i ≤ maxFile ∧ k' ≤ i := by
    refine and_congr_right fun _ => ⟨fun h => h p k' (update_self ..), ?_⟩
    intro h q l hq
    dsimp only at hq
    by_cases hqp : q = p
    · subst hqp
      rw [update_self] at hq
      cases hq
      exact h
    · rw [update_of_ne hqp] at hq
      exact absurd (hs.locks q p ip (by rw [hq]; rfl) (by rw [hp]; rfl)) hqp
  have hkeeps' {q : ℕ} (hq : q ≠ ip) (i : ℕ) :
      Store.Keeps { s with vol := vol, task := update s.task p (.free ip k') } q i ↔ s.Keeps q i := by
    refine Store.keeps_update (fun l hl => ?_) (fun l hl => ?_) vol
    · rw [hp] at hl
      cases hl
      exact hq rfl
    · cases hl
      exact absurd rfl hq
  have hother {q : ℕ} (hq : q ≠ ip) (i : ℕ) : vol.slot q i = s.vol.slot q i :=
    slot_congr (hothers q hq) fun _ => by rw [hdata]
  have howns (b : ℕ) : Store.Owns { s with vol := vol, task := update s.task p (.free ip k') } ip b ↔
      b ≠ 0 ∧ ∃ i ≤ maxFile, k' ≤ i ∧ s.vol.slot ip i = b := by
    simp only [Store.Owns, hkeeps]
    constructor
    · rintro ⟨-, hb, i, ⟨hi, hi'⟩, hib⟩
      exact ⟨hb, i, hi, hi', by rwa [← hslot i hi hi']⟩
    · rintro ⟨hb, i, hi, hi', hib⟩
      exact ⟨hip, hb, i, ⟨hi, hi'⟩, by rwa [hslot i hi hi']⟩
  have howns' {q : ℕ} (hq : q ≠ ip) (b : ℕ) :
      Store.Owns { s with vol := vol, task := update s.task p (.free ip k') } q b ↔ s.Owns q b := by
    simp only [Store.Owns, hkeeps' hq, hother hq]
  refine ⟨?_, ?_, ?_, hblocks ▸ hs.blocks, hs.boot, ?_, ?_, ?_, ?_, ?_, ?_⟩
  · intro a b q ha hb
    dsimp only at ha hb
    rw [hfile] at ha hb
    exact hs.locks a b q ha hb
  · intro a q ha
    dsimp only at ha
    rw [hfile] at ha
    exact hs.alive a q ha
  · intro a
    dsimp only
    by_cases ha : a = p
    · subst ha
      rw [update_self]
      exact ht
    · rw [update_of_ne ha]
      have hne (q : ℕ) (hq : (s.task a).file = some q) : q ≠ ip := by
        rintro rfl
        exact ha (hs.locks a p q hq (by rw [hp]; rfl))
      refine (hs.tasks a).congr (fun q hq => hothers q (hne q hq)) ?_
      intro q hq i hi
      rwa [hother (hne q hq)]
  · intro b
    dsimp only
    rw [hused, hs.accounted]
    constructor
    · rintro ⟨hb | ⟨q, hq⟩, hnot⟩
      · exact .inl hb
      · by_cases hqp : q = ip
        · subst hqp
          obtain ⟨-, hb, i, hi, hib⟩ := hq
          rw [hs.keeps_free hp] at hi
          refine .inr ⟨q, (howns b).mpr ⟨hb, i, hi.1, ?_, hib⟩⟩
          by_contra hle
          exact hnot ⟨hb, i, hi.1, hi.2, Nat.lt_of_not_le hle, hib⟩
        · exact .inr ⟨q, (howns' hqp b).mpr hq⟩
    · rintro (hb | ⟨q, hq⟩)
      · refine ⟨.inl hb, ?_⟩
        rintro ⟨hb0, i, hi, hki, -, hib⟩
        exact hs.own ip b ⟨hip, hb0, i, (hs.keeps_free hp).mpr ⟨hi, hki⟩, hib⟩ hb
      · by_cases hqp : q = ip
        · subst hqp
          obtain ⟨hb, i, hi, hki, hib⟩ := (howns b).mp hq
          have hi' := (hs.keeps_free hp).mpr ⟨hi, hlt.le.trans hki⟩
          refine ⟨.inr ⟨q, hip, hb, i, hi', hib⟩, ?_⟩
          rintro ⟨-, j, hj, hkj, hjk, hjb⟩
          have heq := (hs.apart q q hip hip i j hi' ((hs.keeps_free hp).mpr ⟨hj, hkj⟩) (hib ▸ hb) (hib.trans hjb.symm)).2
          omega
        · rw [howns' hqp] at hq
          refine ⟨.inr ⟨q, hq⟩, ?_⟩
          rintro ⟨hb, j, hj, hkj, -, hjb⟩
          obtain ⟨htype, -, i, hi, hib⟩ := hq
          exact hqp (hs.apart q ip htype hip i j hi ((hs.keeps_free hp).mpr ⟨hj, hkj⟩) (hib ▸ hb) (hib.trans hjb.symm)).1
  · intro q b hq hb
    by_cases hqp : q = ip
    · subst hqp
      obtain ⟨hb0, i, hi, hki, hib⟩ := (howns b).mp hq
      exact hs.own q b ⟨hip, hb0, i, (hs.keeps_free hp).mpr ⟨hi, hlt.le.trans hki⟩, hib⟩ hb
    · exact hs.own q b ((howns' hqp b).mp hq) hb
  · have hold {a : ℕ} (i : ℕ) (hi : Store.Keeps { s with vol := vol, task := update s.task p (.free ip k') } a i) :
        s.Keeps a i ∧ vol.slot a i = s.vol.slot a i := by
      by_cases hap : a = ip
      · subst hap
        rw [hkeeps] at hi
        exact ⟨(hs.keeps_free hp).mpr ⟨hi.1, hlt.le.trans hi.2⟩, hslot i hi.1 hi.2⟩
      · rw [hkeeps' hap] at hi
        exact ⟨hi, hother hap i⟩
    intro a q ha hq i j hi hj hz heq
    dsimp only at hz heq
    rw [(hold i hi).2] at hz heq
    rw [(hold j hj).2] at heq
    exact hs.apart a q ha hq i j (hold i hi).1 (hold j hj).1 hz heq
  · intro q hq hwq i hi
    dsimp only at hq hi ⊢
    have hqp : q ≠ ip := by
      rintro rfl
      exact hwq p k' (update_self ..)
    rw [hothers q hqp] at hi
    rw [hother hqp]
    refine hs.filled q hq ?_ i hi
    intro a l ha
    refine hwq a l ?_
    dsimp only
    rw [update_of_ne, ha]
    rintro rfl
    rw [hp] at ha
    cases ha
    exact hqp rfl
  · intro q hq
    dsimp only
    by_cases hqp : q = ip
    · subst hqp
      rw [hsize]
      exact hs.size q hq
    · rw [hothers q hqp]
      exact hs.size q hq
  · intro q hq
    dsimp only
    by_cases hqp : q = ip
    · refine .inr ⟨p, ?_⟩
      rw [update_self]
      exact hqp.symm
    · rw [hdinodes, hothers q hqp]
      refine (hs.synced q hq).imp_right ?_
      rintro ⟨a, ha⟩
      refine ⟨a, ?_⟩
      have hap : a ≠ p := by
        rintro rfl
        have hfile := ha.file
        rw [hp] at hfile
        exact hqp (Option.some.inj hfile).symm
      rw [update_of_ne hap]
      exact ha.congr (by rw [hothers q hqp])

/-! ### Calls begin and end -/

/-- A process takes up something else. -/
theorem Store.Inv.turned (hs : s.Inv sys) (hfree : ∀ q k, s.task p ≠ .free q k) (hzero : ∀ q k, t = .free q k → k = 0)
    (hfile : ∀ q, t.file = some q → s.type q ≠ 0 ∧ ∀ a, a ≠ p → (s.task a).file ≠ some q) (ht : t.Ok s.vol)
    (hchanges : ∀ q, (s.task p).Changes s.vol q → t.Changes s.vol q) :
    Store.Inv sys { s with task := update s.task p t } := by
  have hkeeps (q i : ℕ) : Store.Keeps { s with task := update s.task p t } q i ↔ s.Keeps q i :=
    Store.keeps_update (hfree q) (hzero q) s.vol
  have howns (q b : ℕ) : Store.Owns { s with task := update s.task p t } q b ↔ s.Owns q b := by
    simp only [Store.Owns, hkeeps]
  refine ⟨?_, ?_, ?_, hs.blocks, hs.boot, ?_, ?_, ?_, ?_, hs.size, ?_⟩
  · intro a b q ha hb
    dsimp only at ha hb
    by_cases hap : a = p
    · subst hap
      rw [update_self] at ha
      by_contra hba
      rw [update_of_ne (Ne.symm hba)] at hb
      exact (hfile q ha).2 b (Ne.symm hba) hb
    · rw [update_of_ne hap] at ha
      by_cases hbp : b = p
      · subst hbp
        rw [update_self] at hb
        exact absurd ha ((hfile q hb).2 a hap)
      · rw [update_of_ne hbp] at hb
        exact hs.locks a b q ha hb
  · intro a q ha
    dsimp only at ha
    by_cases hap : a = p
    · subst hap
      rw [update_self] at ha
      exact (hfile q ha).1
    · rw [update_of_ne hap] at ha
      exact hs.alive a q ha
  · intro a
    dsimp only
    by_cases hap : a = p
    · subst hap
      rwa [update_self]
    · rw [update_of_ne hap]
      exact hs.tasks a
  · intro b
    simp only [howns]
    exact hs.accounted b
  · intro q b hq
    rw [howns] at hq
    exact hs.own q b hq
  · intro a q ha hq i j hi hj
    rw [hkeeps] at hi hj
    exact hs.apart a q ha hq i j hi hj
  · intro q hq hw
    refine hs.filled q hq ?_
    intro a k ha
    refine hw a k ?_
    dsimp only
    rw [update_of_ne, ha]
    rintro rfl
    exact hfree q k ha
  · intro q hq
    refine (hs.synced q hq).imp_right ?_
    rintro ⟨a, ha⟩
    by_cases hap : a = p
    · subst hap
      refine ⟨a, ?_⟩
      dsimp only
      rw [update_self]
      exact hchanges q ha
    · refine ⟨a, ?_⟩
      dsimp only
      rwa [update_of_ne hap]

/-- A process is done with the inode of a file, which nobody else works on. -/
theorem Store.Inv.inode (ip : ℕ) (type : ℕ → ℕ) (vol : Volume) (hs : s.Inv sys) (hp : ∀ q, (s.task p).file = some q → q = ip)
    (hlock : ∀ a, a ≠ p → (s.task a).file ≠ some ip) (hblocks : vol.blocks = s.vol.blocks)
    (hused : vol.used = s.vol.used) (hdata : vol.data = s.vol.data)
    (hothers : ∀ q ≠ ip, vol.inodes q = s.vol.inodes q ∧ vol.dinodes q = s.vol.dinodes q ∧ type q = s.type q)
    (hown : type ip ≠ 0 → ∀ i ≤ maxFile, vol.slot ip i ≠ 0 → s.type ip ≠ 0 ∧ s.Keeps ip i ∧ s.vol.slot ip i = vol.slot ip i)
    (hown' : s.type ip ≠ 0 → ∀ i, s.Keeps ip i → s.vol.slot ip i ≠ 0 → type ip ≠ 0 ∧ vol.slot ip i = s.vol.slot ip i)
    (hfilled : type ip ≠ 0 → ∀ i, bsize * i < (vol.inodes ip).size → vol.slot ip i ≠ 0)
    (hsize : type ip ≠ 0 → (vol.inodes ip).size ≤ maxFile * bsize)
    (hsync : type ip ≠ 0 → vol.dinodes ip = vol.inodes ip) :
    Store.Inv sys { s with vol := vol, type := type, task := update s.task p .idle } := by
  have hother {q : ℕ} (hq : q ≠ ip) (i : ℕ) : vol.slot q i = s.vol.slot q i :=
    slot_congr (hothers q hq).1 fun _ => by rw [hdata]
  have hfree {q : ℕ} {a : Fin n} {k : ℕ} (ha : update s.task p .idle a = .free q k) : q ≠ ip ∧ s.task a = .free q k := by
    by_cases hap : a = p
    · subst hap
      rw [update_self] at ha
      cases ha
    · rw [update_of_ne hap] at ha
      refine ⟨?_, ha⟩
      rintro rfl
      exact hlock a hap (by rw [ha]; rfl)
  have hself : Store.Whole { s with vol := vol, type := type, task := update s.task p .idle } ip := by
    intro a k ha
    exact (hfree ha).1 rfl
  have hkeeps {q : ℕ} (hq : q ≠ ip) (i : ℕ) :
      Store.Keeps { s with vol := vol, type := type, task := update s.task p .idle } q i ↔ s.Keeps q i := by
    refine and_congr_right fun _ => ?_
    constructor
    · intro h a k ha
      refine h a k ?_
      dsimp only
      rw [update_of_ne, ha]
      rintro rfl
      exact hq (hp q (by rw [ha]; rfl))
    · intro h a k ha
      exact h a k (hfree ha).2
  have howns (b : ℕ) : Store.Owns { s with vol := vol, type := type, task := update s.task p .idle } ip b ↔ s.Owns ip b := by
    constructor
    · rintro ⟨htype, hb, i, hi, rfl⟩
      obtain ⟨htype', hk, hik⟩ := hown htype i hi.1 hb
      exact ⟨htype', hb, i, hk, hik⟩
    · rintro ⟨htype, hb, i, hi, rfl⟩
      obtain ⟨htype', hik⟩ := hown' htype i hi hb
      exact ⟨htype', hb, i, hself.keeps hi.1, hik⟩
  have howns' {q : ℕ} (hq : q ≠ ip) (b : ℕ) :
      Store.Owns { s with vol := vol, type := type, task := update s.task p .idle } q b ↔ s.Owns q b := by
    simp only [Store.Owns, hkeeps hq, hother hq, (hothers q hq).2.2]
  have hiff (q b : ℕ) : Store.Owns { s with vol := vol, type := type, task := update s.task p .idle } q b ↔ s.Owns q b := by
    by_cases hq : q = ip
    · rw [hq]
      exact howns b
    · exact howns' hq b
  refine ⟨?_, ?_, ?_, hblocks ▸ hs.blocks, hs.boot, ?_, ?_, ?_, ?_, ?_, ?_⟩
  · intro a b q ha hb
    dsimp only at ha hb
    by_cases hap : a = p
    · subst hap
      rw [update_self] at ha
      cases ha
    · by_cases hbp : b = p
      · subst hbp
        rw [update_self] at hb
        cases hb
      · rw [update_of_ne hap] at ha
        rw [update_of_ne hbp] at hb
        exact hs.locks a b q ha hb
  · intro a q ha
    dsimp only at ha ⊢
    by_cases hap : a = p
    · subst hap
      rw [update_self] at ha
      cases ha
    · rw [update_of_ne hap] at ha
      have hq : q ≠ ip := by
        rintro rfl
        exact hlock a hap ha
      rw [(hothers q hq).2.2]
      exact hs.alive a q ha
  · intro a
    dsimp only
    by_cases hap : a = p
    · subst hap
      rw [update_self]
      trivial
    · rw [update_of_ne hap]
      have hne (q : ℕ) (hq : (s.task a).file = some q) : q ≠ ip := by
        rintro rfl
        exact hlock a hap hq
      refine (hs.tasks a).congr (fun q hq => (hothers q (hne q hq)).1) ?_
      intro q hq i hi
      rwa [hother (hne q hq)]
  · intro b
    dsimp only
    simp only [hused, hiff]
    exact hs.accounted b
  · intro q b hq
    rw [hiff] at hq
    exact hs.own q b hq
  · have hold {a : ℕ} {i : ℕ} (hi : Store.Keeps { s with vol := vol, type := type, task := update s.task p .idle } a i)
        (ha : type a ≠ 0) (hz : vol.slot a i ≠ 0) : s.type a ≠ 0 ∧ s.Keeps a i ∧ s.vol.slot a i = vol.slot a i := by
      by_cases hap : a = ip
      · subst hap
        exact hown ha i hi.1 hz
      · rw [hkeeps hap] at hi
        rw [(hothers a hap).2.2] at ha
        exact ⟨ha, hi, (hother hap i).symm⟩
    intro a q ha hq i j hi hj hz heq
    obtain ⟨hta, hka, hsa⟩ := hold hi ha hz
    obtain ⟨htq, hkq, hsq⟩ := hold hj hq (by rwa [← heq])
    exact hs.apart a q hta htq i j hka hkq (hsa ▸ hz) (by rw [hsa, hsq]; exact heq)
  · intro q hq hw i hi
    dsimp only at hq hi ⊢
    by_cases hqp : q = ip
    · subst hqp
      exact hfilled hq i hi
    · rw [(hothers q hqp).1] at hi
      rw [(hothers q hqp).2.2] at hq
      rw [hother hqp]
      refine hs.filled q hq ?_ i hi
      intro a k ha
      refine hw a k ?_
      dsimp only
      rw [update_of_ne, ha]
      rintro rfl
      exact hqp (hp q (by rw [ha]; rfl))
  · intro q hq
    dsimp only at hq ⊢
    by_cases hqp : q = ip
    · subst hqp
      exact hsize hq
    · rw [(hothers q hqp).1]
      rw [(hothers q hqp).2.2] at hq
      exact hs.size q hq
  · intro q hq
    dsimp only at hq ⊢
    by_cases hqp : q = ip
    · subst hqp
      exact .inl (hsync hq)
    · rw [(hothers q hqp).2.2] at hq
      rw [(hothers q hqp).1, (hothers q hqp).2.1]
      refine (hs.synced q hq).imp_right ?_
      rintro ⟨a, ha⟩
      refine ⟨a, ?_⟩
      have hap : a ≠ p := by
        rintro rfl
        exact hqp (hp q ha.file)
      rw [update_of_ne hap]
      exact ha.congr (by rw [(hothers q hqp).1])

end SdeSystems.Disk
