import SdeSystems.Disk.Accounts

/-!
# Each turn keeps the accounts

What `bmap` takes was free and becomes the file's (`bmap_claims`); what `itrunc` gives back was the file's. With
this every step of the machine keeps `Store.Inv` (`Turn.inv`), so in no run does `bfree` panic, and `balloc`
panics where really all blocks are in use (`panics`).
-/

namespace SdeSystems.Disk

open Lib Function

variable {n : ℕ} {s s' : Store n} {v v' vol : Volume} {sys : Set ℕ} {p : Fin n} {ip q i j k a b bn m off tot x c : ℕ}
  {w src : ℕ → UInt8} {e : Option (Call n)}

/-! ### What `bmap` takes -/

theorem Claims.refl (v : Volume) (ip : ℕ) : Claims v v ip := ⟨rfl, fun _ hb => .inl hb⟩

theorem Adds.claims (h : Adds v v' ip i b) (hi : i ≤ maxFile) : Claims v v' ip := by
  refine ⟨h.blocks, ?_⟩
  intro x hx
  rw [h.used] at hx
  by_cases hxb : x = b
  · exact .inr ⟨i, hi, by rw [h.slot_self hi, hxb]⟩
  · rw [update_of_ne hxb] at hx
    exact .inl hx

/-- The blocks that `bmap` takes are the file's. -/
theorem bmap_claims (hv : v.Ok ip) (hbn : bn < maxFile) (h : bmap v ip bn = some (v', a)) : Claims v v' ip := by
  refine (bmap_spec hv hbn h).1.keeps (P := fun t => Claims v t ip) ?_ (.refl v ip)
  intro t t' i b hok hi hadd ht
  have hle : i ≤ maxFile := by
    rcases hi with rfl | ⟨rfl, -⟩
    · exact hbn.le
    · exact le_rfl
  refine ⟨hadd.blocks.trans ht.blocks, ?_⟩
  intro x hx
  rcases (hadd.claims hle).used x hx with hx | hx
  · rcases ht.used x hx with hx | ⟨j, hj, hjx⟩
    · exact .inl hx
    · by_cases hji : j = i
      · subst hji
        rw [hadd.empty] at hjx
        obtain rfl := hjx
        exact .inl hv.boot
      · exact .inr ⟨j, hj, by rw [hadd.slot j hj, if_neg hji, hjx]⟩
  · exact .inr hx

/-- One turn of the loop of `writei`. -/
theorem block_wrote (hv : v.Ok ip) (hbn : off / bsize < maxFile) (hb : bmap v ip (off / bsize) = some (v', a))
    (hm : 0 < m) (hfit : off % bsize + m ≤ bsize) (hmax : off + m ≤ maxFile * bsize) :
    Wrote v (v'.copy a (off % bsize) (fun x => w (off + x)) m) ip off m w ∧
      Claims v (v'.copy a (off % bsize) (fun x => w (off + x)) m) ip := by
  obtain ⟨hgrows, rfl, hne⟩ := bmap_spec hv hbn hb
  have hv' := hgrows.ok hv
  have htable := hv'.ne_table hbn hne
  constructor
  · refine putBytes_wrote hv hmax ?_
    rw [putBytes_bmap hv hbn hb hm, putBytes_mapped hv' hbn hne hfit]
  · refine ⟨(bmap_claims hv hbn hb).blocks, ?_⟩
    intro x hx
    refine ((bmap_claims hv hbn hb).used x hx).imp_right ?_
    rintro ⟨i, hi, rfl⟩
    exact ⟨i, hi, slot_copy htable⟩

/-- A block that the file has is found, and the inode stays. -/
theorem bmap_inodes (hv : v.Ok ip) (hbn : bn < maxFile) (h : bmap v ip bn = some (v', a)) :
    v'.inodes ip = v.inodes ip ∨ (v.inodes ip).size ≤ bsize * bn := by
  rcases Nat.lt_or_ge (bsize * bn) (v.inodes ip).size with hlt | hge
  · rw [bmap_of_slot hbn (hv.filled bn hlt)] at h
    obtain ⟨rfl, -⟩ := Prod.mk.inj (Option.some.inj h)
    exact .inl rfl
  · exact .inr hge

/-! ### What `itrunc` gives back -/

/-- One block is free now, if there is one at all. -/
structure Gives (v v' : Volume) (ip b : ℕ) : Prop where
  /-- The number of blocks. -/
  blocks : v'.blocks = v.blocks
  /-- The blocks in use. -/
  used : ∀ x, v'.used x = true ↔ v.used x = true ∧ ¬ (x ≠ 0 ∧ b = x)
  /-- The bytes. -/
  data : v'.data = v.data
  /-- The inodes on the disk. -/
  dinodes : v'.dinodes = v.dinodes
  /-- The other inodes. -/
  others : ∀ q ≠ ip, v'.inodes q = v.inodes q
  /-- The size of the file. -/
  size : (v'.inodes ip).size = (v.inodes ip).size

theorem Gives.none (v : Volume) (ip : ℕ) : Gives v v ip 0 :=
  ⟨rfl, fun _ => (and_iff_left fun h => h.1 h.2.symm).symm, rfl, rfl, fun _ _ => rfl, rfl⟩

theorem bfree_gives (ip : ℕ) (hb : b ≠ 0) (h : bfree v b = some v') : Gives v v' ip b ∧ v'.inodes = v.inodes := by
  simp only [bfree] at h
  split at h
  · cases h
  · obtain rfl := Option.some.inj h
    refine ⟨⟨rfl, ?_, rfl, rfl, fun _ _ => rfl, rfl⟩, rfl⟩
    intro x
    by_cases hx : x = b
    · simp [hx, hb]
    · have hx' : ¬ b = x := fun h => hx h.symm
      simp [hx, hx']

theorem Gives.setAddr (h : Gives v v' ip b) : Gives v (v'.setAddr ip i a) ip b := by
  refine ⟨h.blocks, h.used, h.data, h.dinodes, ?_, ?_⟩
  · intro q hq
    rw [← h.others q hq]
    exact update_of_ne hq _ _
  · rw [← h.size]
    simp [Volume.setAddr]

theorem freeAddr_gives (h : freeAddr ip v k = some v') :
    Gives v v' ip ((v.inodes ip).addrs k) ∧ (v'.inodes ip).addrs = update (v.inodes ip).addrs k 0 := by
  simp only [freeAddr] at h
  split at h
  · rename_i hz
    obtain rfl := Option.some.inj h
    rw [hz]
    refine ⟨.none v ip, ?_⟩
    rw [← hz, update_eq_self]
  · rename_i hz
    obtain ⟨v₁, h₁, rfl⟩ := Option.map_eq_some_iff.mp h
    obtain ⟨hgives, hin⟩ := bfree_gives ip hz h₁
    refine ⟨hgives.setAddr, ?_⟩
    simp [Volume.setAddr, hin]

theorem freeEntry_gives {t : ℕ} (ip : ℕ) (h : freeEntry t v j = some v') :
    Gives v v' ip ((v.data t).load (4 * j)).toNat ∧ v'.inodes = v.inodes := by
  simp only [freeEntry] at h
  split at h
  · rename_i hz
    obtain rfl := Option.some.inj h
    rw [hz]
    exact ⟨.none v ip, rfl⟩
  · rename_i hz
    exact bfree_gives ip (fun h => hz (BitVec.eq_of_toNat_eq h)) h

/-- The slots before the table. -/
theorem addrs_slot (hv : v'.data = v.data) (haddrs : ∀ i ≤ ndirect, k ≤ i → (v'.inodes ip).addrs i = (v.inodes ip).addrs i)
    (hi : k ≤ i) (hk : k ≤ ndirect) (him : i ≤ maxFile) : v'.slot ip i = v.slot ip i := by
  have hdir := ndirect_eq
  rcases Nat.lt_or_ge i ndirect with hlt | hge
  · rw [slot_direct hlt, slot_direct hlt, haddrs i hlt.le hi]
  · rcases Nat.lt_or_eq_of_le him with hlt | rfl
    · rw [slot_indirect hge hlt, slot_indirect hge hlt, slot_table, slot_table, haddrs ndirect le_rfl hk, hv]
    · rw [slot_table, slot_table, haddrs ndirect le_rfl hk]

/-- The file has lost block `k`, or what comes before `k'` and is there. -/
theorem Store.Inv.gives {k' : ℕ} (hs : s.Inv sys) (hp : s.task p = .free ip k) (hlt : k < k') (hle : k ≤ maxFile)
    (h : Gives s.vol vol ip (s.vol.slot ip k)) (hnone : ∀ i ≤ maxFile, k < i → i < k' → s.vol.slot ip i = 0)
    (ht : (Task.free ip k').Ok vol) (hslot : ∀ i ≤ maxFile, k' ≤ i → vol.slot ip i = s.vol.slot ip i) :
    Store.Inv sys { s with vol := vol, task := update s.task p (.free ip k') } := by
  refine hs.gave hp hlt h.blocks h.data h.dinodes h.others h.size ht hslot ?_
  intro b
  rw [h.used]
  refine and_congr_right fun _ => not_congr (and_congr_right fun hb => ?_)
  constructor
  · rintro rfl
    exact ⟨k, hle, le_rfl, hlt, rfl⟩
  · rintro ⟨i, hi, hki, hik, rfl⟩
    rcases Nat.lt_or_eq_of_le hki with hki | rfl
    · exact absurd (hnone i hi hki hik) hb
    · rfl

theorem Store.Inv.panic (hs : s.Inv sys) (msg : String) : Store.Inv sys { s with panicked := some msg } :=
  ⟨hs.locks, hs.alive, hs.tasks, hs.blocks, hs.boot, hs.accounted, hs.own, hs.apart, hs.filled, hs.size, hs.synced⟩

/-! ### Calls -/

/-- The bytes of a turn are within one block, and within the file. -/
theorem chunk_spec (off : ℕ) (hlt : tot < m) : 0 < chunk off m tot ∧ tot + chunk off m tot ≤ m ∧
    (off + tot) % bsize + chunk off m tot ≤ bsize := by
  simp only [chunk, bsize_eq]
  omega

/-- The end of `writei`, once the bytes are there. -/
theorem finish_eq (hoff : off ≤ (v.inodes ip).size) : v.finish ip off m = v.extend ip (off + m) := by
  simp only [Volume.finish, Volume.extend]
  by_cases hlt : (v.inodes ip).size < off + m
  · rw [if_pos ⟨by omega, hlt⟩, if_pos hlt]
  · rw [if_neg fun h => hlt h.2, if_neg hlt]

theorem freeInode_spec (h : s.freeInode = some ip) : s.type ip = 0 := by
  have hfound := List.find?_some h
  simp only [decide_eq_true_eq] at hfound
  exact hfound.2

section Turns

variable (hs : s.Inv sys)

include hs

theorem Store.Inv.writing (hp : s.task p = .write ip src off m tot) : s.type ip ≠ 0 ∧ s.Whole ip ∧ s.vol.Ok ip := by
  have hip := hs.alive p ip (by rw [hp]; rfl)
  have hw := hs.whole (p := p) (by rw [hp]; rfl) fun k hk => by rw [hp] at hk; cases hk
  exact ⟨hip, hw, hs.ok hip hw⟩

/-- `bmap` takes a block for the table. -/
theorem Store.Inv.table (hp : s.task p = .write ip src off m tot) (hlt : tot < m)
    (ht : s.vol.NoTable ip ((off + tot) / bsize)) (hb : addrOf s.vol ip ndirect = some (vol, a)) :
    Store.Inv sys { s with vol := vol } := by
  obtain ⟨hip, hw, hok⟩ := hs.writing hp
  have htask := hs.tasks p
  rw [hp] at htask
  obtain ⟨hdev, htot, hoff, hmax, hmapped⟩ := htask
  have hadd : Adds s.vol vol ip maxFile a := addrOf_adds hok (.inr ⟨rfl, rfl⟩) ht.2 hb
  have hwrote : Wrote s.vol vol ip 0 0 src := hadd.wrote hok le_rfl
  have hsize : (s.vol.inodes ip).size ≤ off + tot := by
    by_contra hlong
    refine hok.filled ((off + tot) / bsize) (by rw [bsize_eq]; omega) ?_
    rw [slot_indirect ht.1 (by rw [maxFile_eq]; rw [maxFile_eq, bsize_eq] at hmax; rw [bsize_eq]; omega), slot_table,
      if_pos ht.2]
  have hinv := hs.grown tot hp hwrote (hadd.claims le_rfl) ?_ (.inr (by omega))
  · rw [← hp, update_eq_self] at hinv
    exact hinv
  · refine ⟨hwrote.dev.trans hdev, htot, hwrote.size ▸ hoff, hmax, ?_⟩
    intro x hx hx'
    have hz := hmapped x hx hx'
    rwa [hwrote.slot _ (by rw [maxFile_eq]; rw [maxFile_eq, bsize_eq] at hmax; rw [bsize_eq]; omega) hz]

/-- One block is written. -/
theorem Store.Inv.block (hp : s.task p = .write ip src off m tot) (hlt : tot < m)
    (hb : bmap s.vol ip ((off + tot) / bsize) = some (vol, a)) :
    Wrote s.vol (vol.copy a ((off + tot) % bsize) (fun x => src (tot + x)) (chunk off m tot)) ip (off + tot)
        (chunk off m tot) (fun x => src (x - off)) ∧
      Store.Inv sys
        { s with vol := vol.copy a ((off + tot) % bsize) (fun x => src (tot + x)) (chunk off m tot),
                 task := update s.task p (.write ip src off m (tot + chunk off m tot)) } := by
  obtain ⟨hip, hw, hok⟩ := hs.writing hp
  have htask := hs.tasks p
  rw [hp] at htask
  obtain ⟨hdev, htot, hoff, hmax, hmapped⟩ := htask
  obtain ⟨hpos, hle, hfit⟩ := chunk_spec off hlt
  have hbn : (off + tot) / bsize < maxFile := by
    rw [maxFile_eq, bsize_eq] at hmax
    rw [maxFile_eq, bsize_eq]
    omega
  have hsrc : (fun x => src (tot + x)) = fun x => (fun y => src (y - off)) (off + tot + x) := by
    funext x
    dsimp only
    congr 1
    omega
  obtain ⟨hwrote, hclaims⟩ := block_wrote (w := fun y => src (y - off)) hok hbn hb hpos hfit (by omega)
  rw [← hsrc] at hwrote hclaims
  refine ⟨hwrote, hs.grown _ hp hwrote hclaims ?_ ?_⟩
  · refine ⟨hwrote.dev.trans hdev, hle, hwrote.size ▸ hoff, hmax, ?_⟩
    intro x hx hx'
    by_cases hold : x < off + tot
    · have hz := hmapped x hx hold
      rwa [hwrote.slot _ (by rw [maxFile_eq]; rw [maxFile_eq, bsize_eq] at hmax; rw [bsize_eq]; omega) hz]
    · exact hwrote.mapped x (by omega) (by omega)
  · rcases bmap_inodes hok hbn hb with hsame | hend
    · exact .inl hsame
    · refine .inr (Nat.lt_of_le_of_lt hend ?_)
      rw [bsize_eq]
      omega

/-- What is read is there. -/
theorem Store.Inv.found {l : ℕ} {got : List UInt8} (hp : s.task p = .read ip off m l got) (hlt : got.length < l) :
    bmap s.vol ip ((off + got.length) / bsize) =
      some (s.vol, s.vol.slot ip ((off + got.length) / bsize)) := by
  have hip := hs.alive p ip (by rw [hp]; rfl)
  have hw := hs.whole (p := p) (by rw [hp]; rfl) fun k hk => by rw [hp] at hk; cases hk
  have hok := hs.ok hip hw
  have htask := hs.tasks p
  rw [hp] at htask
  obtain ⟨hdev, hle, hoff, -, hl⟩ := htask
  have hsize := hok.size
  rw [maxFile_eq, bsize_eq] at hsize
  refine bmap_of_slot ?_ (hok.filled _ ?_)
  · rw [maxFile_eq, bsize_eq]
    omega
  · rw [bsize_eq]
    omega

/-- One of the first blocks is given back. -/
theorem Store.Inv.freeAddr (hp : s.task p = .free ip k) (hk : k < ndirect) (hb : freeAddr ip s.vol k = some vol) :
    Store.Inv sys { s with vol := vol, task := update s.task p (.free ip (k + 1)) } := by
  have hdir := ndirect_eq
  have hmax := maxFile_eq
  have htask := hs.tasks p
  rw [hp] at htask
  obtain ⟨hle, hz, -, -⟩ := htask
  obtain ⟨hgives, haddrs⟩ := freeAddr_gives hb
  rw [← slot_direct hk] at hgives
  refine hs.gives hp (Nat.lt_succ_self k) (by omega) hgives ?_ ?_ ?_
  · intro i _ hki hik
    omega
  · refine ⟨by omega, ?_, fun h => by omega, fun h => by omega⟩
    intro i hi hik
    rw [haddrs]
    by_cases hki : i = k
    · rw [hki, update_self]
    · rw [update_of_ne hki]
      exact hz i hi (by omega)
  · intro i hi hki
    refine addrs_slot hgives.data (k := k + 1) ?_ hki hk hi
    intro j _ hj
    rw [haddrs, update_of_ne (by omega)]

/-- There is no table. -/
theorem Store.Inv.noTable (hp : s.task p = .free ip ndirect) (ht : (s.vol.inodes ip).addrs ndirect = 0) :
    Store.Inv sys { s with task := update s.task p (.free ip (maxFile + 1)) } := by
  have hdir := ndirect_eq
  have hmax := maxFile_eq
  have htask := hs.tasks p
  rw [hp] at htask
  have hnone (i : ℕ) (hi : i ≤ maxFile) (hge : ndirect ≤ i) : s.vol.slot ip i = 0 := by
    rcases Nat.lt_or_eq_of_le hi with hlt | rfl
    · rw [slot_indirect hge hlt, slot_table, if_pos ht]
    · rw [slot_table, ht]
  refine hs.gives hp (by omega) (by omega) ?_ ?_ ?_ ?_
  · rw [hnone ndirect (by omega) le_rfl]
    exact .none s.vol ip
  · intro i hi hki _
    exact hnone i hi hki.le
  · exact ⟨le_rfl, fun i hi _ => htask.2.1 i hi (by omega), fun _ => ht, fun _ h => by omega⟩
  · intro i _ _
    rfl

/-- A block of the table is given back. -/
theorem Store.Inv.freeEntry (hp : s.task p = .free ip k) (hk : ndirect ≤ k) (hk' : k < maxFile)
    (ht : (s.vol.inodes ip).addrs ndirect ≠ 0)
    (hb : freeEntry ((s.vol.inodes ip).addrs ndirect) s.vol (k - ndirect) = some vol) :
    Store.Inv sys { s with vol := vol, task := update s.task p (.free ip (k + 1)) } := by
  have htask := hs.tasks p
  rw [hp] at htask
  obtain ⟨hgives, hin⟩ := freeEntry_gives ip hb
  have hslot : s.vol.slot ip k = ((s.vol.data ((s.vol.inodes ip).addrs ndirect)).load (4 * (k - ndirect))).toNat := by
    rw [slot_indirect hk hk', slot_table, if_neg ht]
  rw [← hslot] at hgives
  refine hs.gives hp (Nat.lt_succ_self k) hk'.le hgives ?_ ?_ ?_
  · intro i _ hki hik
    omega
  · refine ⟨by omega, ?_, fun h => by omega, fun _ _ => by rwa [hin]⟩
    intro i hi _
    rw [hin]
    exact htask.2.1 i hi (by omega)
  · intro i _ _
    simp only [Volume.slot, hin, hgives.data]

/-- The table is given back. -/
theorem Store.Inv.freeTable (hp : s.task p = .free ip maxFile)
    (hb : bfree s.vol ((s.vol.inodes ip).addrs ndirect) = some vol) :
    Store.Inv sys { s with vol := vol.setAddr ip ndirect 0, task := update s.task p (.free ip (maxFile + 1)) } := by
  have hdir := ndirect_eq
  have hmax := maxFile_eq
  have htask := hs.tasks p
  rw [hp] at htask
  obtain ⟨hgives, hin⟩ := bfree_gives ip (htask.2.2.2 (by omega) le_rfl) hb
  rw [← slot_table] at hgives
  have haddrs : ((vol.setAddr ip ndirect 0).inodes ip).addrs = update (s.vol.inodes ip).addrs ndirect 0 := by
    simp [Volume.setAddr, hin]
  refine hs.gives hp (Nat.lt_succ_self _) le_rfl hgives.setAddr ?_ ?_ ?_
  · intro i _ hki hik
    omega
  · refine ⟨le_rfl, ?_, ?_, fun _ h => by omega⟩
    · intro i hi _
      rw [haddrs, update_of_ne (by omega)]
      exact htask.2.1 i hi (by omega)
    · intro _
      rw [haddrs, update_self]
  · intro i hi hki
    omega

/-- `writei` comes to its end. -/
theorem Store.Inv.written (hp : s.task p = .write ip src off m tot) (hn : ¬ tot < m) :
    Store.Inv sys { s with vol := s.vol.finish ip off m, task := update s.task p .idle } := by
  obtain ⟨hip, hw, hok⟩ := hs.writing hp
  have htask := hs.tasks p
  rw [hp] at htask
  obtain ⟨hdev, htot, hoff, hmax, hmapped⟩ := htask
  obtain rfl : tot = m := by omega
  have hlock (a : Fin n) (ha : a ≠ p) : (s.task a).file ≠ some ip := fun h => ha (hs.locks a p ip h (by rw [hp]; rfl))
  have hextend : (s.vol.extend ip (off + tot)).Ok ip := by
    refine hok.extend ?_ hmax
    intro i hi hlt
    have hx := hmapped (bsize * i) (by omega) hlt
    rwa [Nat.mul_div_cancel_left i (by rw [bsize_eq]; omega)] at hx
  obtain ⟨hblocks, hused, hdata⟩ : (s.vol.extend ip (off + tot)).blocks = s.vol.blocks ∧
      (s.vol.extend ip (off + tot)).used = s.vol.used ∧ (s.vol.extend ip (off + tot)).data = s.vol.data := extend_blocks
  rw [finish_eq hoff]
  refine hs.inode ip s.type _ ?_ hlock hblocks hused hdata ?_ ?_ ?_ ?_ ?_ ?_
  · intro q hq
    rw [hp] at hq
    exact (Option.some.inj hq).symm
  · intro q hq
    refine ⟨extend_others hq, ?_, rfl⟩
    rcases Nat.lt_or_ge (s.vol.inodes ip).size (off + tot) with hlt | hge
    · rw [extend_of_lt hlt]
      exact update_of_ne hq _ _
    · rw [extend_of_le hge]
  · intro _ i hi _
    exact ⟨hip, hw.keeps hi, extend_slot.symm⟩
  · intro _ i _ _
    exact ⟨hip, extend_slot⟩
  · intro _
    exact hextend.filled
  · intro _
    exact hextend.size
  · intro _
    rcases Nat.lt_or_ge (s.vol.inodes ip).size (off + tot) with hlt | hge
    · rw [extend_of_lt hlt]
      simp [Volume.resize]
    · rw [extend_of_le hge]
      refine (hs.synced ip hip).resolve_right ?_
      rintro ⟨a, ha⟩
      obtain rfl := hs.locks a p ip ha.file (by rw [hp]; rfl)
      rw [hp] at ha
      exact absurd ha.2 (by omega)

/-- A new file. -/
theorem Store.Inv.make {t : ℕ} {dev : Option Bool} (hp : s.task p = .idle) (hfree : s.freeInode = some ip) :
    Store.Inv sys
      { s with vol := { s.vol with inodes := update s.vol.inodes ip (emptyInode dev),
                                   dinodes := update s.vol.dinodes ip (emptyInode dev) },
               type := update s.type ip t } := by
  have hz := freeInode_spec hfree
  have hinv := hs.inode (p := p) ip (update s.type ip t)
    { s.vol with inodes := update s.vol.inodes ip (emptyInode dev),
                 dinodes := update s.vol.dinodes ip (emptyInode dev) }
    (by rw [hp]; intro q hq; cases hq) (fun a _ ha => hs.alive a ip ha hz) rfl rfl rfl
    (fun q hq => ⟨update_of_ne hq _ _, update_of_ne hq _ _, update_of_ne hq _ _⟩) ?_ ?_ ?_ ?_ ?_
  · rw [← hp, update_eq_self] at hinv
    exact hinv
  · intro _ i _ hne
    refine absurd ?_ hne
    simp [Volume.slot, emptyInode]
  · intro h
    exact absurd hz h
  · intro _ i hi
    simp [emptyInode] at hi
  · intro _
    simp [emptyInode]
  · intro _
    simp

/-- The end of `itrunc`, and of the file. -/
theorem Store.Inv.freed (hp : s.task p = .free ip (maxFile + 1)) :
    Store.Inv sys
      { s with vol := iupdate { s.vol with inodes := update s.vol.inodes ip { s.vol.inodes ip with size := 0 } } ip,
               type := update s.type ip 0, task := update s.task p .idle } := by
  refine hs.inode ip (update s.type ip 0) _ ?_ ?_ rfl rfl rfl ?_ ?_ ?_ ?_ ?_ ?_
  · intro q hq
    rw [hp] at hq
    exact (Option.some.inj hq).symm
  · intro a ha h
    exact ha (hs.locks a p ip h (by rw [hp]; rfl))
  · intro q hq
    refine ⟨update_of_ne hq _ _, update_of_ne hq _ _, update_of_ne hq _ _⟩
  · intro h
    exact absurd (update_self ..) h
  · intro _ i hi _
    have hle := hi.2 p _ hp
    have := hi.1
    omega
  · intro h
    exact absurd (update_self ..) h
  · intro h
    exact absurd (update_self ..) h
  · intro h
    exact absurd (update_self ..) h

/-- A call begins. -/
theorem Store.Inv.begins {t : Task} (hp : s.task p = .idle) (hlock : s.Unlocked ip) (htype : s.type ip ≠ 0)
    (hfile : t.file = some ip) (ht : t.Ok s.vol) (hzero : ∀ q k, t = .free q k → k = 0) :
    Store.Inv sys { s with task := update s.task p t } := by
  refine hs.turned ?_ hzero ?_ ht ?_
  · intro q k hk
    rw [hp] at hk
    cases hk
  · intro q hq
    rw [hfile] at hq
    obtain rfl := Option.some.inj hq
    exact ⟨htype, fun a _ => hlock a⟩
  · intro q hq
    rw [hp] at hq
    exact hq.elim

end Turns

/-- **A step keeps the accounts.** -/
theorem Turn.inv (h : Turn p s e s') (hs : s.Inv sys) : s'.Inv sys := by
  cases h with
  | refuse => exact hs
  | write ip src off m hp hlock htype hdev hok =>
    refine hs.begins hp hlock htype rfl ?_ (fun q k hk => by cases hk)
    simp only [Volume.refuses, Volume.beyond, not_or, Nat.not_lt] at hok
    exact ⟨hdev, Nat.zero_le _, hok.1.1, hok.2, fun x hx hx' => by omega⟩
  | table hp hlt ht hb => exact hs.table hp hlt ht hb
  | block hp hlt _ hb => exact (hs.block hp hlt hb).2
  | full => exact hs.panic _
  | written hp hn => exact hs.written hp hn
  | readBad => exact hs
  | read ip off m hp hlock htype hdev hok =>
    refine hs.begins hp hlock htype rfl ?_ (fun q k hk => by cases hk)
    simp only [Volume.beyond, not_or, Nat.not_lt] at hok
    refine ⟨hdev, Nat.zero_le _, hok.1, Nat.lt_of_not_le hok.2, ?_⟩
    split <;> omega
  | copyOut hp hlt hb =>
    rw [hs.found hp hlt] at hb
    obtain ⟨rfl, -⟩ := Prod.mk.inj (Option.some.inj hb)
    have htask := hs.tasks p
    rw [hp] at htask
    refine hs.turned ?_ (fun q k hk => by cases hk) ?_ ?_ ?_
    · intro q k hk
      rw [hp] at hk
      cases hk
    · intro q hq
      refine ⟨hs.alive p q (by rw [hp]; exact hq), ?_⟩
      intro a ha h
      exact ha (hs.locks a p q h (by rw [hp]; exact hq))
    · refine ⟨htask.1, ?_, htask.2.2⟩
      rw [List.length_append, List.length_map, List.length_range]
      exact (chunk_spec _ hlt).2.1
    · intro q hq
      rw [hp] at hq
      exact hq.elim
  | got hp _ =>
    refine hs.turned ?_ (fun q k hk => by cases hk) (fun q hq => by cases hq) trivial ?_
    · intro q k hk
      rw [hp] at hk
      cases hk
    · intro q hq
      rw [hp] at hq
      exact hq.elim
  | make t dev _ hp hfree => exact hs.make hp hfree
  | noInodes => exact hs.panic _
  | free ip hp hlock htype =>
    refine hs.begins hp hlock htype rfl ?_ ?_
    · exact ⟨Nat.zero_le _, fun i _ h => by omega, fun h => by omega, fun h => by omega⟩
    · intro q k hk
      cases hk
      rfl
  | freeAddr hp hk hb => exact hs.freeAddr hp hk hb
  | noTable hp ht => exact hs.noTable hp ht
  | freeEntry hp hk hk' ht hb => exact hs.freeEntry hp hk hk' ht hb
  | freeTable hp hb => exact hs.freeTable hp hb
  | freeFree => exact hs.panic _
  | freed hp => exact hs.freed hp

/-! ### Panics -/

/-- Why the kernel may panic: all blocks are in use, or all inodes. -/
def Store.Full (s : Store n) (msg : String) : Prop :=
  msg = "balloc: out of blocks" ∧ (∀ b < s.vol.blocks, s.vol.used b = true) ∨
    msg = "ialloc: no inodes" ∧ ∀ i, 1 ≤ i → i < s.ninodes → s.type i ≠ 0

/-- `itrunc` gives back blocks that are in use. -/
theorem Store.Inv.no_freeFree (hs : s.Inv sys) (hp : s.task p = .free ip k) :
    ¬ (k < ndirect ∧ Disk.freeAddr ip s.vol k = none ∨
      ndirect ≤ k ∧ k < maxFile ∧ (s.vol.inodes ip).addrs ndirect ≠ 0 ∧
        Disk.freeEntry ((s.vol.inodes ip).addrs ndirect) s.vol (k - ndirect) = none ∨
      k = maxFile ∧ bfree s.vol ((s.vol.inodes ip).addrs ndirect) = none) := by
  have hdir := ndirect_eq
  have hmax := maxFile_eq
  have hip := hs.alive p ip (by rw [hp]; rfl)
  have hused (hk : k ≤ maxFile) : s.vol.used (s.vol.slot ip k) = true :=
    hs.used hip ((hs.keeps_free hp).mpr ⟨hk, le_rfl⟩)
  rintro (⟨hk, hb⟩ | ⟨hk, hk', ht, hb⟩ | ⟨rfl, hb⟩)
  · have hu := hused (by omega)
    rw [slot_direct hk] at hu
    simp only [Disk.freeAddr, bfree, hu] at hb
    split at hb <;> cases hb
  · have hu := hused (by omega)
    rw [slot_indirect hk hk', slot_table, if_neg ht] at hu
    simp only [Disk.freeEntry, bfree, hu] at hb
    split at hb <;> cases hb
  · have hu := hused le_rfl
    rw [slot_table] at hu
    simp [bfree, hu] at hb

/-- A disk of four blocks with no file on it. -/
def emptyStore : Store 2 :=
  ⟨⟨4, fun b => decide (b < 2), fun _ _ => 0, fun _ => emptyInode none, fun _ => emptyInode none⟩, 3, fun _ => 0,
    fun _ => .idle, none⟩

theorem emptyStore_inv : emptyStore.Inv {b | b < 2} := by
  have hown (ip b : ℕ) : ¬ emptyStore.Owns ip b := fun h => h.1 rfl
  refine ⟨fun p q ip hp => (by cases hp), fun p ip hp => (by cases hp), fun p => trivial, by decide, by decide, ?_,
    fun ip b h => absurd h (hown ip b), fun ip q hip => absurd rfl hip, fun ip hip => absurd rfl hip,
    fun ip hip => absurd rfl hip, fun ip hip => absurd rfl hip⟩
  intro b
  simp only [hown, exists_false, or_false]
  exact decide_eq_true_iff

/-- Two processes make a file each and write to it, each between two turns of the other. -/
theorem emptyStore_run :
    ∃ s, Shows Store.Step emptyStore [.make 0 1 none, .make 1 2 none, .write 1 2 [9] 0 1, .write 0 1 [7, 7] 0 2] s ∧
      s.vol.used 2 = true ∧ ∀ p, s.task p = .idle := by
  have h₁ := (Shows.refl (R := Store.Step) emptyStore).event (.turn 0 rfl (.make 2 none (by decide) rfl rfl))
  have h₂ := h₁.event (.turn 1 rfl (.make 2 none (by decide) rfl rfl))
  have h₃ := h₂.silent (.turn 0 rfl (.write 1 (fun _ => 7) 0 2 rfl (by decide) (by decide) rfl (by decide)))
  have h₄ := h₃.silent (.turn 1 rfl (.write 2 (fun _ => 9) 0 1 rfl (by decide) (by decide) rfl (by decide)))
  have h₅ := h₄.silent (.turn 0 rfl (.block rfl (by decide) (by decide) rfl))
  have h₆ := h₅.silent (.turn 1 rfl (.block rfl (by decide) (by decide) rfl))
  have h₇ := h₆.event (.turn 1 rfl (.written rfl (by decide)))
  have h₈ := h₇.event (.turn 0 rfl (.written rfl (by decide)))
  exact ⟨_, h₈, rfl, Fin.forall_fin_two.mpr ⟨rfl, rfl⟩⟩

end SdeSystems.Disk
