import SdeSystems.Wmap.Agree

/-!
# What a write-back writes

`write_to_file` writes a page in pieces of 1536 bytes and stops at the first that `writei` refuses. A
file has at most 71680 bytes, so of the page at 69632 only the first piece gets there: the bytes from
71168 on are never written. All other pages of a file are written as a whole, also where the file
ends within them, which makes the file longer.
-/

namespace SdeSystems.Wmap

open Lib Function

/-! ### One page -/

/-- The end of what is written of the page at `off`. -/
def writeEnd (off : ℕ) : ℕ := max off (min (off + 4096) 71168)

theorem writeEnd_le_iff {off size : ℕ} (h : off ≤ size) : writeEnd off ≤ size ↔ min (off + 4096) 71168 ≤ size := by
  unfold writeEnd
  rw [max_le_iff]
  exact and_iff_right h

/-- The bytes from `start` to `stop` are those of `src`, and the others those of `bytes`. -/
def patch (bytes src : ℕ → UInt8) (start stop x : ℕ) : UInt8 := if start ≤ x ∧ x < stop then src x else bytes x

section

variable {size off n a b c : ℕ} {bytes src src' : ℕ → UInt8} {ip : Inode} {ret : ℤ}

theorem patch_self : patch bytes src a a = bytes := by
  funext x
  exact if_neg (by omega)

theorem patch_congr (h : ∀ x, a ≤ x → src x = src' x) : patch bytes src a b = patch bytes src' a b := by
  funext x
  unfold patch
  split
  · rename_i hx
    exact h x hx.1
  · rfl

theorem patch_patch (hab : a ≤ b) (hbc : b ≤ c) : patch (patch bytes src a b) src b c = patch bytes src a c := by
  funext x
  unfold patch
  by_cases hx : x < b
  · rw [if_neg (by omega)]
    exact if_congr (by omega) rfl rfl
  · exact (if_congr (by omega) rfl (if_neg (by omega))).trans rfl

theorem writei_regular (hoff : off ≤ size) (hlt : off + n < 2 ^ 32) (hn : 0 < n) :
    writei (.regular size bytes) src off n = if off + n ≤ maxFileSize then
      (.regular (max size (off + n)) (patch bytes (fun x => src (x - off)) off (off + n)), (n : ℤ))
      else (.regular size bytes, -1) := by
  unfold writei
  dsimp only
  rw [if_neg (by omega)]
  by_cases hmax : off + n ≤ maxFileSize
  · rw [if_neg (by omega), if_pos hmax]
    have hsize : (if 0 < n ∧ size < off + n then off + n else size) = max size (off + n) := by
      split <;> omega
    rw [hsize]
    rfl
  · rw [if_pos (by omega), if_neg hmax]

/-- The loop of `write_to_file`: all is written, or the next piece would go beyond the largest file. -/
theorem writeLoop_regular {fuel i : ℕ} (h : writeLoop src n fuel i (off + i) (.regular size bytes) = some (ip, ret))
    (hi : i ≤ n) (hfuel : n - i ≤ fuel) (hoff : off + i ≤ size) (hlt : off + n < 2 ^ 32) :
    ∃ e, off + i ≤ e ∧ e ≤ off + n ∧ ip = .regular (max size e) (patch bytes (fun x => src (x - off)) (off + i) e) ∧
      (e = off + i ∨ e ≤ maxFileSize) ∧
      (e = off + n ∨ maxFileSize < e + min (off + n - e) 1536 ∧ (e - (off + i)) % 1536 = 0) := by
  induction fuel generalizing i size bytes with
  | zero =>
    obtain ⟨rfl, -⟩ := Prod.mk.inj (Option.some.inj h)
    exact ⟨off + i, le_rfl, by omega, by rw [patch_self, max_eq_left hoff], .inl rfl, .inl (by omega)⟩
  | succ fuel ih =>
    unfold writeLoop at h
    dsimp only at h
    by_cases hin : i < n
    · rw [if_pos hin, writei_regular hoff (by omega) (by omega)] at h
      generalize hpiece : min (n - i) 1536 = piece at h
      by_cases hmax : off + i + piece ≤ maxFileSize
      · -- the piece is written, and the others follow
        have hsrc (x : ℕ) (hx : off + i ≤ x) : src (i + (x - (off + i))) = src (x - off) := by
          congr 1
          omega
        rw [if_pos hmax] at h
        dsimp only at h
        rw [if_neg (by omega), if_neg (by simp), Int.toNat_natCast, Nat.mod_eq_of_lt (by omega), Nat.add_assoc,
          patch_congr hsrc] at h
        obtain ⟨e, hle, hge, rfl, hmax', hend⟩ := ih h (by omega) (by omega) (by omega)
        refine ⟨e, by omega, hge, ?_, .inr (by omega), hend.imp_right fun h => h.imp_right fun hmod => by omega⟩
        rw [max_assoc, max_eq_right hle, patch_patch (by omega) hle]
      · rw [if_neg hmax] at h
        dsimp only at h
        rw [if_pos (by omega)] at h
        obtain ⟨rfl, -⟩ := Prod.mk.inj (Option.some.inj h)
        refine ⟨off + i, le_rfl, by omega, by rw [patch_self, max_eq_left hoff], .inl rfl, .inr ⟨by omega, by simp⟩⟩
    · rw [if_neg hin] at h
      obtain ⟨rfl, -⟩ := Prod.mk.inj (Option.some.inj h)
      exact ⟨off + i, le_rfl, by omega, by rw [patch_self, max_eq_left hoff], .inl rfl, .inl (by omega)⟩

/-- The write-back of a page of a regular file. -/
theorem writeToFile_regular {fs fs' : Fs} {f i : ℕ} (h : writeToFile fs f src off 4096 = some (fs', ret))
    (hf : (fs.files f).ip = some i) (hip : fs.inodes i = .regular size bytes) (hal : off % 4096 = 0) (hoff : off ≤ size)
    (hlt : off + 4096 < 2 ^ 32) : fs'.files = fs.files ∧ (∀ j ≠ i, fs'.inodes j = fs.inodes j) ∧
      fs'.inodes i = .regular (max size (writeEnd off)) (patch bytes (fun x => src (x - off)) off (writeEnd off)) := by
  unfold writeToFile at h
  rw [hf] at h
  dsimp only at h
  obtain ⟨⟨inode, r⟩, hloop, hk⟩ := Option.map_eq_some_iff.mp h
  obtain ⟨rfl, -⟩ := Prod.mk.inj hk
  rw [hip] at hloop
  obtain ⟨e, hle, hge, rfl, hmax, hend⟩ := writeLoop_regular (i := 0) hloop (by omega) (by omega) hoff hlt
  -- the pieces end at one of four places
  obtain rfl : e = writeEnd off := by
    unfold writeEnd
    unfold maxFileSize at hmax hend
    omega
  refine ⟨rfl, fun j hj => update_of_ne hj .., ?_⟩
  dsimp only
  rw [update_self]
  rfl

end

/-! ### The pages of a region -/

/-- The pages of a region that are present are different ones, and they have the bytes `cur`, from the beginning of
the region on. -/
structure Contents (m : Mem) (pd : PageDir) (r : Region) (cur : ℕ → UInt8) : Prop where
  /-- The bytes. -/
  bytes : ∀ va ∈ pageRange r.addr r.stop, ∀ e, pd.pte va = some e → ∀ x < 4096, m.bytes e.page x = cur (va - r.addr + x)
  /-- No page is there twice. -/
  distinct : ∀ va ∈ pageRange r.addr r.stop, ∀ va' ∈ pageRange r.addr r.stop, ∀ e e', pd.pte va = some e →
    pd.pte va' = some e' → e.page = e'.page → va = va'

/-- The offset `o` is in what is written of one of the pages in `done`. -/
def WrittenAt (r : Region) (pd : PageDir) (done : List ℕ) (o : ℕ) : Prop :=
  ∃ va ∈ done, pd.pte va ≠ none ∧ va - r.addr ≤ o ∧ o < writeEnd (va - r.addr)

/-- A file of the given size and bytes after the write-back of the pages in `done`. -/
structure Written (r : Region) (pd : PageDir) (cur bytes : ℕ → UInt8) (size : ℕ) (done : List ℕ) (size' : ℕ)
    (bytes' : ℕ → UInt8) : Prop where
  /-- The file does not become shorter. -/
  le : size ≤ size'
  /-- All that is written is in it. -/
  ge : ∀ va ∈ done, pd.pte va ≠ none → writeEnd (va - r.addr) ≤ size'
  /-- It ends where it did or where one of the pages does. -/
  eq : size' = size ∨ ∃ va ∈ done, pd.pte va ≠ none ∧ size' = writeEnd (va - r.addr)
  /-- The bytes that are written. -/
  written : ∀ o, WrittenAt r pd done o → bytes' o = cur o
  /-- The others. -/
  others : ∀ o, ¬ WrittenAt r pd done o → bytes' o = bytes o

section

variable {r : Region} {pd : PageDir} {cur bytes bytes' : ℕ → UInt8} {size size' f i va : ℕ} {done : List ℕ} {d d' : Drop}
  {back free : Bool} {start stop : ℕ}

theorem Written.nil : Written r pd cur bytes size [] size bytes :=
  ⟨le_rfl, by simp, .inl rfl, fun o ⟨va, hva, _⟩ => absurd hva (by simp), fun _ _ => rfl⟩

theorem writtenAt_append {o : ℕ} : WrittenAt r pd (done ++ [va]) o ↔ WrittenAt r pd done o ∨
    pd.pte va ≠ none ∧ va - r.addr ≤ o ∧ o < writeEnd (va - r.addr) := by
  unfold WrittenAt
  constructor
  · rintro ⟨x, hx, hx'⟩
    rcases List.mem_append.mp hx with hx | hx
    · exact .inl ⟨x, hx, hx'⟩
    · rw [List.mem_singleton.mp hx] at hx'
      exact .inr hx'
  · rintro (⟨x, hx, hx'⟩ | h)
    · exact ⟨x, by simp [hx], hx'⟩
    · exact ⟨va, by simp, h⟩

theorem writtenAt_congr {pd' : PageDir} (h : ∀ va ∈ done, pd.pte va = pd'.pte va) {o : ℕ} :
    WrittenAt r pd done o ↔ WrittenAt r pd' done o :=
  exists_congr fun va => and_congr_right fun hva => by rw [h va hva]

/-- Only the entries of the pages matter. -/
theorem Written.congr {pd' : PageDir} (h : Written r pd cur bytes size done size' bytes')
    (hpd : ∀ va ∈ done, pd.pte va = pd'.pte va) : Written r pd' cur bytes size done size' bytes' where
  le := h.le
  ge va hva hpte := h.ge va hva (by rwa [hpd va hva])
  eq := h.eq.imp_right fun ⟨va, hva, hpte, hsize⟩ => ⟨va, hva, by rwa [← hpd va hva], hsize⟩
  written o ho := h.written o ((writtenAt_congr hpd).mpr ho)
  others o ho := h.others o (mt (writtenAt_congr hpd).mp ho)

/-- A page that is not there. -/
theorem Written.skip (h : Written r pd cur bytes size done size' bytes') (hva : pd.pte va = none) :
    Written r pd cur bytes size (done ++ [va]) size' bytes' := by
  have hsame (o : ℕ) : WrittenAt r pd (done ++ [va]) o ↔ WrittenAt r pd done o := by
    rw [writtenAt_append]
    simp [hva]
  refine ⟨h.le, ?_, h.eq.imp_right fun ⟨x, hx, hx'⟩ => ⟨x, by simp [hx], hx'⟩,
    fun o ho => h.written o ((hsame o).mp ho), fun o ho => h.others o (mt (hsame o).mpr ho)⟩
  intro x hx hpte
  rcases List.mem_append.mp hx with hx | hx
  · exact h.ge x hx hpte
  · rw [List.mem_singleton.mp hx] at hpte
    exact absurd hva hpte

/-- A page is written. -/
theorem Written.page (h : Written r pd cur bytes size done size' bytes') (hva : pd.pte va ≠ none) {src : ℕ → UInt8}
    (hsrc : ∀ x < 4096, src x = cur (va - r.addr + x)) :
    Written r pd cur bytes size (done ++ [va]) (max size' (writeEnd (va - r.addr)))
      (patch bytes' (fun x => src (x - (va - r.addr))) (va - r.addr) (writeEnd (va - r.addr))) := by
  refine ⟨h.le.trans (le_max_left ..), ?_, ?_, ?_, ?_⟩
  · intro x hx hpte
    rcases List.mem_append.mp hx with hx | hx
    · exact (h.ge x hx hpte).trans (le_max_left ..)
    · rw [List.mem_singleton.mp hx]
      exact le_max_right ..
  · rcases le_total (writeEnd (va - r.addr)) size' with hle | hle
    · rw [max_eq_left hle]
      exact h.eq.imp_right fun ⟨x, hx, hx'⟩ => ⟨x, by simp [hx], hx'⟩
    · rw [max_eq_right hle]
      exact .inr ⟨va, by simp, hva, rfl⟩
  · intro o ho
    by_cases hin : va - r.addr ≤ o ∧ o < writeEnd (va - r.addr)
    · have hlt : o - (va - r.addr) < 4096 := by
        have := hin.2
        unfold writeEnd at this
        omega
      unfold patch
      rw [if_pos hin]
      dsimp only
      rw [hsrc _ hlt]
      congr 1
      omega
    · unfold patch
      rw [if_neg hin]
      exact h.written o ((writtenAt_append.mp ho).resolve_right fun h => hin h.2)
  · intro o ho
    rw [writtenAt_append, not_or] at ho
    unfold patch
    rw [if_neg fun hin => ho.2 ⟨hva, hin⟩]
    exact h.others o ho.1

/-- The write-back of the pages of a region, each of which is freed after it has been written. -/
theorem dropPages_written (hr : r.Ok) (h : dropPages true true r r.addr r.stop d = some d')
    (hc : Contents d.space.mem d.space.pgdir r cur) (hf : r.f = some f) (hip : (d.fs.files f).ip = some i)
    (hinode : d.fs.inodes i = .regular size bytes) (hlen : r.length ≤ size) :
    ∃ size' bytes', d'.fs.inodes i = .regular size' bytes' ∧
      Written r d.space.pgdir cur bytes size (pageRange r.addr r.stop) size' bytes' := by
  have hend := hr.stop_eq
  obtain ⟨hal, h₀, hlo, hhi⟩ := hr
  -- the entries and pages to come are as before
  have hloop := forEach_done (I := fun done t => t.fs.files = d.fs.files ∧
    (∀ va, (∀ x ∈ done, vpn va ≠ vpn x) → t.space.pgdir.pte va = d.space.pgdir.pte va) ∧
    (∀ va ∈ pageRange r.addr r.stop, va ∉ done → ∀ e, d.space.pgdir.pte va = some e →
      t.space.mem.bytes e.page = d.space.mem.bytes e.page) ∧
    ∃ size' bytes', t.fs.inodes i = .regular size' bytes' ∧
      Written r d.space.pgdir cur bytes size done size' bytes') ?_ (dropPages_some h)
    ⟨rfl, fun _ _ => rfl, fun _ _ _ _ _ => rfl, size, bytes, hinode, .nil⟩
  · exact hloop.2.2.2
  intro done va rest t t' hl ⟨hfiles, hpte, hbytes, size', bytes', hino, hw⟩ hb
  have hself := hpte va fun x hx => vpn_ne_of_split hl hal (by omega) hx
  have hmem : va ∈ pageRange r.addr r.stop := by simp [hl]
  have hva := (mem_pageRange_of_aligned hal).mp hmem
  have hnot : va ∉ done := fun hd => absurd rfl (vpn_ne_of_split hl hal (by omega) hd)
  unfold dropPage at hb
  split at hb
  · rename_i hn
    obtain ⟨rfl, -⟩ := Prod.mk.inj (Option.some.inj hb)
    rw [hn] at hself
    exact ⟨hfiles, fun x hx => hpte x fun y hy => hx y (by simp [hy]),
      fun x hx hxd => hbytes x hx fun h => hxd (by simp [h]), size', bytes', hino, hw.skip hself.symm⟩
  · rename_i e he
    rw [he] at hself
    simp only [if_true] at hb
    split at hb
    · cases hb
    · rename_i fs hfs
      obtain ⟨rfl, -⟩ := Prod.mk.inj (Option.some.inj hb)
      have hoff : u32 ((va : ℤ) - r.addr) = va - r.addr := by
        unfold u32
        omega
      unfold writeBack at hfs
      rw [hf] at hfs
      dsimp only at hfs
      rw [hoff] at hfs
      obtain ⟨⟨fs', ret⟩, hwrite, rfl⟩ := Option.map_eq_some_iff.mp hfs
      have hle := hw.le
      obtain ⟨hfiles', -, hino'⟩ := writeToFile_regular hwrite (by rw [hfiles]; exact hip) hino (by omega) (by omega)
        (by omega)
      refine ⟨hfiles'.trans hfiles, ?_, ?_, _, _, hino', ?_⟩
      · intro x hx
        exact (PageDir.pte_setPte_of_ne (hx va (by simp))).trans (hpte x fun y hy => hx y (by simp [hy]))
      · intro x hx hxd e' he'
        have hne : e'.page ≠ e.page := fun hpage =>
          hxd (by simp [hc.distinct x hx va hmem e' e he' hself.symm hpage])
        exact (update_of_ne hne ..).trans (hbytes x hx (fun h => hxd (by simp [h])) e' he')
      · apply hw.page (by rw [← hself]; simp)
        intro x hx
        rw [hbytes va hmem hnot e hself.symm]
        exact hc.bytes va hmem e hself.symm x hx

/-- The other files. -/
theorem dropPages_inodes (h : dropPages back free r start stop d = some d')
    (hi : back = true → ∀ f, r.f = some f → (d.fs.files f).ip ≠ some i) : d'.fs.inodes i = d.fs.inodes i := by
  refine (forEach_keeps (I := fun t => t.fs.files = d.fs.files ∧ t.fs.inodes i = d.fs.inodes i)
    (fun va _ t t' ok ⟨hfiles, hsame⟩ hb => ?_) (dropPages_some h) ⟨rfl, rfl⟩).2
  refine ⟨(dropPage_files hb).trans hfiles, ?_⟩
  unfold dropPage at hb
  split at hb
  · rw [← (Prod.mk.inj (Option.some.inj hb)).1, hsame]
  · split at hb
    · cases hb
    · rename_i fs hfs
      rw [← (Prod.mk.inj (Option.some.inj hb)).1, ← hsame]
      dsimp only
      split at hfs
      · rename_i hback
        unfold writeBack at hfs
        split at hfs
        · rw [← Option.some.inj hfs]
        · rename_i f hf
          obtain ⟨⟨fs', ret⟩, hw, rfl⟩ := Option.map_eq_some_iff.mp hfs
          unfold writeToFile at hw
          split at hw
          · cases hw
          · rename_i j hj
            obtain ⟨⟨inode, ret'⟩, -, hk⟩ := Option.map_eq_some_iff.mp hw
            obtain ⟨rfl, -⟩ := Prod.mk.inj hk
            have hne : i ≠ j := fun hij => hi hback f hf (by rw [← hfiles, hj, hij])
            exact update_of_ne hne ..
      · rw [← Option.some.inj hfs]

end

end SdeSystems.Wmap
