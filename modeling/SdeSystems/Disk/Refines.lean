import SdeSystems.Disk.Turns
import Mathlib.Data.List.TakeDrop

/-!
# A store of files

To its users the disk is a store of files, each a string of bytes, and a call takes effect at once
(`FileStep`). The calls run block by block and side by side, with blocks taken and given back in between; what
they return is what the store would have returned (`Store.refines`).
-/

namespace SdeSystems.Disk

open Lib Function

/-! ### The store -/

/-- A file, or a device. -/
structure FileBytes where
  /-- What `Inode.dev` says. -/
  dev : Option Bool
  /-- The bytes. -/
  bytes : List UInt8

/-- The bytes from `off` on are written over. -/
def overlay (l : List UInt8) (off : ℕ) (bytes : List UInt8) : List UInt8 := l.take off ++ bytes ++ l.drop (off + bytes.length)

/-- A call, with what it returns, of the store of files. -/
inductive FileStep {n : ℕ} : (ℕ → Option FileBytes) → Call n → (ℕ → Option FileBytes) → Prop
  /-- Bytes are written, within the file or at its end. -/
  | write {files : ℕ → Option FileBytes} {f : FileBytes} (p : Fin n) {ip off : ℕ} (bytes : List UInt8)
      (hf : files ip = some f) (hdev : f.dev = none) (hoff : off ≤ f.bytes.length)
      (hmax : off + bytes.length ≤ maxFile * bsize) :
      FileStep files (.write p ip bytes off bytes.length)
        (update files ip (some { f with bytes := overlay f.bytes off bytes }))
  /-- There would be a hole, or the file would be too long. -/
  | refuse {files : ℕ → Option FileBytes} {f : FileBytes} (p : Fin n) {ip off : ℕ} (bytes : List UInt8)
      (hf : files ip = some f) (hdev : f.dev = none)
      (hbad : f.bytes.length < off ∨ maxFile * bsize < off + bytes.length) :
      FileStep files (.write p ip bytes off (-1)) files
  /-- Bytes are read, up to the end of the file. -/
  | read {files : ℕ → Option FileBytes} {f : FileBytes} (p : Fin n) {ip off : ℕ} (m : ℕ)
      (hf : files ip = some f) (hdev : f.dev = none) (hoff : off ≤ f.bytes.length) (hword : off + m < 2 ^ 32) :
      FileStep files (.read p ip off m (some ((f.bytes.drop off).take m))) files
  /-- Nothing is there to read. -/
  | readBad {files : ℕ → Option FileBytes} {f : FileBytes} (p : Fin n) {ip off : ℕ} (m : ℕ)
      (hf : files ip = some f) (hdev : f.dev = none) (hbad : f.bytes.length < off ∨ 2 ^ 32 ≤ off + m) :
      FileStep files (.read p ip off m none) files
  /-- An empty file where there was none. -/
  | make {files : ℕ → Option FileBytes} (p : Fin n) {ip : ℕ} (dev : Option Bool) (hf : files ip = none) (hip : 1 ≤ ip) :
      FileStep files (.make p ip dev) (update files ip (some ⟨dev, []⟩))
  /-- A file is thrown away. -/
  | remove {files : ℕ → Option FileBytes} {f : FileBytes} (p : Fin n) {ip : ℕ} (hf : files ip = some f) :
      FileStep files (.remove p ip) (update files ip none)

/-- The bytes of a file on the disk. -/
def Volume.contents (v : Volume) (ip : ℕ) : List UInt8 := (List.range (v.inodes ip).size).map (v.byte ip)

/-- The files of the disk. -/
def Store.files {n : ℕ} (s : Store n) (ip : ℕ) : Option FileBytes :=
  if s.type ip = 0 then none else some ⟨(s.vol.inodes ip).dev, s.vol.contents ip⟩

variable {n : ℕ} {s s' : Store n} {v v' vol : Volume} {sys : Set ℕ} {p : Fin n} {ip q i off m tot x c : ℕ}
  {w src : ℕ → UInt8} {e : Option (Call n)} {f : FileBytes} {files : ℕ → Option FileBytes} {l bytes : List UInt8} {t : Task}

/-! ### Bytes written over -/

theorem overlay_length (h : off ≤ l.length) : (overlay l off bytes).length = max l.length (off + bytes.length) := by
  simp only [overlay, List.length_append, List.length_take, List.length_drop]
  omega

theorem overlay_getElem? (h : off ≤ l.length) :
    (overlay l off bytes)[x]? = if off ≤ x ∧ x < off + bytes.length then bytes[x - off]? else l[x]? := by
  have htake : (l.take off).length = off := List.length_take_of_le h
  simp only [overlay]
  rw [List.append_assoc]
  rcases Nat.lt_or_ge x off with hlt | hge
  · rw [List.getElem?_append_left (by omega), if_neg (by omega), List.getElem?_take_of_lt hlt]
  · rw [List.getElem?_append_right (by omega), htake]
    by_cases hin : x < off + bytes.length
    · rw [if_pos ⟨hge, hin⟩, List.getElem?_append_left (by omega)]
    · rw [if_neg fun h => hin h.2, List.getElem?_append_right (by omega), List.getElem?_drop]
      congr 1
      omega

/-! ### A file in the middle of calls -/

/-- The file has these bytes, but for what a process has written of more to come. -/
structure Store.HasFile (s : Store n) (ip : ℕ) (f : FileBytes) : Prop where
  /-- What kind of file it is. -/
  dev : s.Whole ip → (s.vol.inodes ip).dev = f.dev
  /-- The size. -/
  size : s.Whole ip → (s.vol.inodes ip).size = f.bytes.length
  /-- The bytes that no process has written. -/
  bytes : s.Whole ip → ∀ x < f.bytes.length,
    (∀ p src off m tot, s.task p = .write ip src off m tot → ¬ (off ≤ x ∧ x < off + tot)) →
    f.bytes[x]? = some (s.vol.byte ip x)
  /-- The bytes that one has. -/
  written : ∀ p src off m tot, s.task p = .write ip src off m tot → ∀ x, off ≤ x → x < off + tot →
    s.vol.byte ip x = src (x - off)
  /-- The bytes that one has read. -/
  got : ∀ p off m k got, s.task p = .read ip off m k got → got = (f.bytes.drop off).take got.length

/-- The disk has these files. -/
structure Store.Has (s : Store n) (files : ℕ → Option FileBytes) : Prop where
  /-- They are the inodes with a type. -/
  live : ∀ ip, files ip = none ↔ s.type ip = 0
  /-- Each has its bytes. -/
  file : ∀ ip f, files ip = some f → s.HasFile ip f

/-- The byte of a file that is there is in a block of the file. -/
theorem Store.Inv.byte_block (hs : s.Inv sys) (hip : s.type ip ≠ 0) (hw : s.Whole ip)
    (hx : x < (s.vol.inodes ip).size) : s.Keeps ip (x / bsize) ∧ s.vol.slot ip (x / bsize) ≠ 0 := by
  have hsize := hs.size ip hip
  refine ⟨hw.keeps ?_, hs.filled ip hip hw _ ?_⟩
  · rw [maxFile_eq, bsize_eq] at hsize
    rw [maxFile_eq, bsize_eq]
    omega
  · rw [bsize_eq]
    omega

theorem Store.Inv.written_block (hs : s.Inv sys) (hp : s.task p = .write ip src off m tot) (hx : off ≤ x)
    (hx' : x < off + tot) : s.Keeps ip (x / bsize) ∧ s.vol.slot ip (x / bsize) ≠ 0 := by
  have htask := hs.tasks p
  rw [hp] at htask
  obtain ⟨-, htot, -, hmax, hmapped⟩ := htask
  refine ⟨(hs.writing hp).2.1.keeps ?_, hmapped x hx hx'⟩
  rw [maxFile_eq, bsize_eq] at hmax
  rw [maxFile_eq, bsize_eq]
  omega

/-- **What the processes do to other files** does not matter. -/
theorem Store.HasFile.congr (h : s.HasFile ip f) (hs : s.Inv sys) (hip : s.type ip ≠ 0)
    (htask : ∀ a t, t.file = some ip → (s'.task a = t ↔ s.task a = t)) (hin : s'.vol.inodes ip = s.vol.inodes ip)
    (hblock : ∀ i, s.Keeps ip i → s.vol.slot ip i ≠ 0 →
      s'.vol.slot ip i = s.vol.slot ip i ∧ s'.vol.data (s.vol.slot ip i) = s.vol.data (s.vol.slot ip i)) :
    s'.HasFile ip f := by
  have hwhole (hw : s'.Whole ip) : s.Whole ip := fun a k ha => hw a k ((htask a (.free ip k) rfl).mpr ha)
  have hbyte (x : ℕ) (hx : s.Keeps ip (x / bsize) ∧ s.vol.slot ip (x / bsize) ≠ 0) :
      s'.vol.byte ip x = s.vol.byte ip x := by
    obtain ⟨hslot, hdata⟩ := hblock _ hx.1 hx.2
    simp only [Volume.byte]
    rw [hslot, hdata]
  refine ⟨fun hw => hin ▸ h.dev (hwhole hw), fun hw => hin ▸ h.size (hwhole hw), ?_, ?_, ?_⟩
  · intro hw x hx hnot
    have hsize := h.size (hwhole hw)
    rw [hbyte x (hs.byte_block hip (hwhole hw) (hsize ▸ hx))]
    refine h.bytes (hwhole hw) x hx ?_
    intro a src off m tot ha
    exact hnot a src off m tot ((htask a (.write ip src off m tot) rfl).mpr ha)
  · intro a src off m tot ha x hx hx'
    have ha' := (htask a (.write ip src off m tot) rfl).mp ha
    rw [hbyte x (hs.written_block ha' hx hx')]
    exact h.written a src off m tot ha' x hx hx'
  · intro a off m k got ha
    exact h.got a off m k got ((htask a (.read ip off m k got) rfl).mp ha)

/-- Only the file `ip` is worked on. -/
structure Store.Frame (s s' : Store n) (ip : ℕ) : Prop where
  /-- Which files there are. -/
  type : ∀ q ≠ ip, s'.type q = s.type q
  /-- Who works on another file. -/
  task : ∀ q ≠ ip, ∀ a t, t.file = some q → (s'.task a = t ↔ s.task a = t)
  /-- The other inodes. -/
  inodes : ∀ q ≠ ip, s'.vol.inodes q = s.vol.inodes q
  /-- Their blocks. -/
  block : ∀ q ≠ ip, s.type q ≠ 0 → ∀ i, s.Keeps q i → s.vol.slot q i ≠ 0 →
    s'.vol.slot q i = s.vol.slot q i ∧ s'.vol.data (s.vol.slot q i) = s.vol.data (s.vol.slot q i)

/-- Files that are not worked on stay, and the one that is has what it has. -/
theorem Store.Has.frame {g : Option FileBytes} (ip : ℕ) (h : s.Has files) (hs : s.Inv sys) (hframe : s.Frame s' ip)
    (hlive : g = none ↔ s'.type ip = 0) (hfile : ∀ f, g = some f → s'.HasFile ip f) : s'.Has (update files ip g) := by
  constructor
  · intro q
    by_cases hq : q = ip
    · subst hq
      rw [update_self]
      exact hlive
    · rw [update_of_ne hq, hframe.type q hq]
      exact h.live q
  · intro q f hf
    by_cases hq : q = ip
    · subst hq
      rw [update_self] at hf
      exact hfile f hf
    · rw [update_of_ne hq] at hf
      have htype : s.type q ≠ 0 := by
        intro hz
        rw [(h.live q).mpr hz] at hf
        cases hf
      exact (h.file q f hf).congr hs htype (hframe.task q hq) (hframe.inodes q hq) (hframe.block q hq htype)

/-- The same, where the files stay as they are. -/
theorem Store.Has.silent (ip : ℕ) (h : s.Has files) (hs : s.Inv sys) (hframe : s.Frame s' ip) (htype : s'.type ip = s.type ip)
    (hfile : ∀ f, files ip = some f → s'.HasFile ip f) : s'.Has files := by
  have hhas := h.frame ip hs hframe (g := files ip) (by rw [htype]; exact h.live ip) hfile
  rwa [update_eq_self] at hhas

theorem Store.Has.exists_file (h : s.Has files) (hip : s.type ip ≠ 0) : ∃ f, files ip = some f :=
  Option.ne_none_iff_exists'.mp fun hnone => hip ((h.live ip).mp hnone)

theorem task_update (hold : ∀ q, (s.task p).file = some q → q = ip) (hnew : ∀ q, t.file = some q → q = ip) (hq : q ≠ ip)
    (a : Fin n) (u : Task) (hu : u.file = some q) : update s.task p t a = u ↔ s.task a = u := by
  by_cases ha : a = p
  · subst ha
    rw [update_self]
    constructor
    · rintro rfl
      exact absurd (hnew q hu) hq
    · rintro rfl
      exact absurd (hold q hu) hq
  · rw [update_of_ne ha]

/-- The bytes and the other inodes stay. -/
theorem Store.Frame.of_data (type : ℕ → ℕ) (hold : ∀ q, (s.task p).file = some q → q = ip)
    (hnew : ∀ q, t.file = some q → q = ip) (htype : ∀ q ≠ ip, type q = s.type q)
    (hin : ∀ q ≠ ip, vol.inodes q = s.vol.inodes q) (hdata : vol.data = s.vol.data) :
    s.Frame { s with vol := vol, type := type, task := update s.task p t } ip := by
  refine ⟨htype, fun q hq => task_update hold hnew hq, hin, ?_⟩
  intro q hq _ i _ _
  exact ⟨slot_congr (hin q hq) fun _ => by rw [hdata], by rw [hdata]⟩

/-- The bytes that are written are those of one file. -/
theorem Store.Inv.frame (tot' : ℕ) (hs : s.Inv sys) (hp : s.task p = .write ip src off m tot)
    (h : Wrote s.vol vol ip x c w) :
    s.Frame { s with vol := vol, task := update s.task p (.write ip src off m tot') } ip := by
  obtain ⟨hip, hw, -⟩ := hs.writing hp
  refine ⟨fun _ _ => rfl, ?_, h.others, ?_⟩
  · intro q hq
    refine task_update ?_ (fun q h => (Option.some.inj h).symm) hq
    intro q hq
    rw [hp] at hq
    exact (Option.some.inj hq).symm
  · intro q hq htype i hi hz
    exact ⟨hs.other_slot hip hw h htype hq, (hs.other_block hip hw h htype hq hi hz).2.2⟩

/-- A file that a process throws away has no bytes that matter. -/
theorem Store.Inv.hasFile_free {k : ℕ} (hs : s.Inv sys) (hp : s.task p = .free ip k) : s.HasFile ip f := by
  have hw : ¬ s.Whole ip := fun hw => hw p k hp
  refine ⟨fun h => absurd h hw, fun h => absurd h hw, fun h => absurd h hw, ?_, ?_⟩
  · intro a src off m tot ha
    obtain rfl := hs.locks a p ip (by rw [ha]; rfl) (by rw [hp]; rfl)
    rw [hp] at ha
    cases ha
  · intro a off m k' got ha
    obtain rfl := hs.locks a p ip (by rw [ha]; rfl) (by rw [hp]; rfl)
    rw [hp] at ha
    cases ha

/-! ### The file that is worked on -/

theorem Store.Unlocked.whole (h : s.Unlocked ip) : s.Whole ip := by
  intro a k ha
  exact h a (by rw [ha]; rfl)

/-- A call for the file begins. -/
theorem Store.HasFile.begins (h : s.HasFile ip f) (hlock : s.Unlocked ip)
    (hwrite : ∀ src off m tot, t = .write ip src off m tot → tot = 0)
    (hread : ∀ off m k got, t = .read ip off m k got → got = []) :
    Store.HasFile { s with task := update s.task p t } ip f := by
  have hw := hlock.whole
  refine ⟨fun _ => h.dev hw, fun _ => h.size hw, ?_, ?_, ?_⟩
  · intro _ x hx _
    refine h.bytes hw x hx ?_
    intro a src off m tot ha
    exact absurd (by rw [ha]; rfl) (hlock a)
  · intro a src off m tot ha x hx hx'
    dsimp only at ha
    by_cases hap : a = p
    · subst hap
      rw [update_self] at ha
      have := hwrite src off m tot ha
      omega
    · rw [update_of_ne hap] at ha
      exact absurd (by rw [ha]; rfl) (hlock a)
  · intro a off m k got ha
    dsimp only at ha
    by_cases hap : a = p
    · subst hap
      rw [update_self] at ha
      rw [hread off m k got ha]
      rfl
    · rw [update_of_ne hap] at ha
      exact absurd (by rw [ha]; rfl) (hlock a)

/-- More bytes are written. -/
theorem Store.HasFile.wrote (h : s.HasFile ip f) (hs : s.Inv sys) (hp : s.task p = .write ip src off m tot)
    (hle : off + tot + c ≤ maxFile * bsize) (hv : Wrote s.vol vol ip (off + tot) c fun x => src (x - off)) :
    Store.HasFile { s with vol := vol, task := update s.task p (.write ip src off m (tot + c)) } ip f := by
  obtain ⟨hip, hw, hok⟩ := hs.writing hp
  have hself (a : Fin n) (ha : (s.task a).file = some ip) : a = p := hs.locks a p ip ha (by rw [hp]; rfl)
  refine ⟨fun _ => hv.dev.trans (h.dev hw), fun _ => hv.size.trans (h.size hw), ?_, ?_, ?_⟩
  · intro _ x hx hnot
    have hout : ¬ (off ≤ x ∧ x < off + (tot + c)) := hnot p src off m (tot + c) (update_self ..)
    have hxs : x < (s.vol.inodes ip).size := by rwa [h.size hw]
    have hsize := hok.size
    dsimp only
    rw [hv.kept x (by omega) (hs.byte_block hip hw hxs).2 (by omega)]
    refine h.bytes hw x hx ?_
    intro a src' off' m' tot' ha
    obtain rfl := hself a (by rw [ha]; rfl)
    rw [hp] at ha
    cases ha
    omega
  · intro a src' off' m' tot' ha x hx hx'
    dsimp only at ha ⊢
    by_cases hap : a = p
    · subst hap
      rw [update_self] at ha
      cases ha
      by_cases hold : x < off + tot
      · rw [hv.kept x (by omega) (hs.written_block hp hx hold).2 (by omega)]
        exact h.written a src off m tot hp x hx hold
      · exact hv.written x (by omega) (by omega)
    · rw [update_of_ne hap] at ha
      exact absurd (hself a (by rw [ha]; rfl)) hap
  · intro a off' m' k got ha
    dsimp only at ha
    by_cases hap : a = p
    · subst hap
      rw [update_self] at ha
      cases ha
    · rw [update_of_ne hap] at ha
      exact absurd (hself a (by rw [ha]; rfl)) hap

/-- Nobody works on the file any more. -/
theorem Store.HasFile.of_unlocked (hlock : s.Unlocked ip) (hdev : (s.vol.inodes ip).dev = f.dev)
    (hsize : (s.vol.inodes ip).size = f.bytes.length)
    (hbytes : ∀ x < f.bytes.length, f.bytes[x]? = some (s.vol.byte ip x)) : s.HasFile ip f := by
  refine ⟨fun _ => hdev, fun _ => hsize, fun _ x hx _ => hbytes x hx, ?_, ?_⟩
  · intro a src off m tot ha
    exact absurd (by rw [ha]; rfl) (hlock a)
  · intro a off m k got ha
    exact absurd (by rw [ha]; rfl) (hlock a)

/-- The lock is given back. -/
theorem Store.Inv.unlocked (vol : Volume) (type : ℕ → ℕ) (hs : s.Inv sys) (hp : (s.task p).file = some ip) :
    Store.Unlocked { s with vol := vol, type := type, task := update s.task p .idle } ip := by
  intro a ha
  dsimp only at ha
  by_cases hap : a = p
  · subst hap
    rw [update_self] at ha
    cases ha
  · rw [update_of_ne hap] at ha
    exact hap (hs.locks a p ip ha hp)

/-- The end of `writei`: the bytes are the file's. -/
theorem Store.HasFile.finish (h : s.HasFile ip f) (hs : s.Inv sys) (hp : s.task p = .write ip src off m m) :
    Store.HasFile { s with vol := s.vol.finish ip off m, task := update s.task p .idle } ip
      { f with bytes := overlay f.bytes off ((List.range m).map src) } := by
  obtain ⟨hip, hw, hok⟩ := hs.writing hp
  have htask := hs.tasks p
  rw [hp] at htask
  obtain ⟨-, -, hoff, -, -⟩ := htask
  have hsize := h.size hw
  have hlen : ((List.range m).map src).length = m := by rw [List.length_map, List.length_range]
  rw [finish_eq hoff]
  refine .of_unlocked (hs.unlocked _ s.type (by rw [hp]; rfl)) ?_ ?_ ?_
  · dsimp only
    rw [extend_inode]
    exact h.dev hw
  · dsimp only
    rw [extend_inode, overlay_length (by omega), hlen]
    dsimp only
    rw [hsize]
  · intro x hx
    dsimp only at hx ⊢
    rw [overlay_length (by omega), hlen] at hx
    rw [overlay_getElem? (by omega), hlen, extend_byte]
    split
    · rename_i hin
      rw [h.written p src off m m hp x hin.1 hin.2, List.getElem?_map, List.getElem?_range (by omega)]
      rfl
    · rename_i hout
      refine h.bytes hw x (by omega) ?_
      intro a src' off' m' tot' ha
      obtain rfl := hs.locks a p ip (by rw [ha]; rfl) (by rw [hp]; rfl)
      rw [hp] at ha
      cases ha
      exact hout

/-- More bytes are read. -/
theorem Store.HasFile.copyOut {k : ℕ} {got : List UInt8} (h : s.HasFile ip f) (hs : s.Inv sys)
    (hp : s.task p = .read ip off m k got) (hlt : got.length < k) :
    Store.HasFile { s with task := update s.task p (.read ip off m k
        (got ++ (List.range (chunk off k got.length)).map fun x =>
          s.vol.data (s.vol.slot ip ((off + got.length) / bsize)) ((off + got.length) % bsize + x))) } ip f := by
  have hip := hs.alive p ip (by rw [hp]; rfl)
  have hself (a : Fin n) (ha : (s.task a).file = some ip) : a = p := hs.locks a p ip ha (by rw [hp]; rfl)
  have hw : s.Whole ip := hs.whole (p := p) (by rw [hp]; rfl) fun k hk => by rw [hp] at hk; cases hk
  have htask := hs.tasks p
  rw [hp] at htask
  obtain ⟨-, -, hoff, -, hk⟩ := htask
  obtain ⟨-, hle, hfit⟩ := chunk_spec off hlt
  have hsize := h.size hw
  refine ⟨fun _ => h.dev hw, fun _ => hsize, ?_, ?_, ?_⟩
  · intro _ x hx _
    refine h.bytes hw x hx ?_
    intro a src off' m' tot ha
    obtain rfl := hself a (by rw [ha]; rfl)
    rw [hp] at ha
    cases ha
  · intro a src off' m' tot ha
    dsimp only at ha
    by_cases hap : a = p
    · subst hap
      rw [update_self] at ha
      cases ha
    · rw [update_of_ne hap] at ha
      exact absurd (hself a (by rw [ha]; rfl)) hap
  · intro a off' m' k' got' ha
    dsimp only at ha
    by_cases hap : a = p
    · subst hap
      rw [update_self] at ha
      cases ha
      rw [List.length_append, List.length_map, List.length_range, List.take_add, ← h.got a off m k got hp]
      congr 1
      refine List.ext_getElem? fun x => ?_
      by_cases hx : x < chunk off k got.length
      · rw [List.getElem?_map, List.getElem?_range hx, List.getElem?_take_of_lt hx, List.getElem?_drop,
          List.getElem?_drop, h.bytes hw _ (by omega)]
        · have hdiv : (off + (got.length + x)) / bsize = (off + got.length) / bsize ∧
              (off + (got.length + x)) % bsize = (off + got.length) % bsize + x := by
            rw [bsize_eq] at hfit ⊢
            omega
          simp only [Volume.byte]
          rw [hdiv.1, hdiv.2]
          rfl
        · intro b src off' m' tot hb
          obtain rfl := hself b (by rw [hb]; rfl)
          rw [hp] at hb
          cases hb
      · rw [List.getElem?_eq_none, List.getElem?_eq_none]
        · rw [List.length_take]
          omega
        · rw [List.length_map, List.length_range]
          omega
    · rw [update_of_ne hap] at ha
      exact absurd (hself a (by rw [ha]; rfl)) hap

/-! ### The steps -/

theorem freeInode_pos (h : s.freeInode = some ip) : 1 ≤ ip := by
  have hfound := List.find?_some h
  simp only [decide_eq_true_eq] at hfound
  exact hfound.1

/-- A call ends: the process has the file no longer. -/
theorem Store.Frame.ends (type : ℕ → ℕ) (hp : (s.task p).file = some ip) (htype : ∀ q ≠ ip, type q = s.type q)
    (hin : ∀ q ≠ ip, vol.inodes q = s.vol.inodes q) (hdata : vol.data = s.vol.data) :
    s.Frame { s with vol := vol, type := type, task := update s.task p .idle } ip := by
  refine .of_data type ?_ (fun q hq => by cases hq) htype hin hdata
  intro q hq
  rw [hp] at hq
  exact (Option.some.inj hq).symm

section Steps

variable (hs : s.Inv sys) (hf : s.Has files)

include hs hf

/-- A call begins, and nothing has changed. -/
theorem Store.Has.begins (hp : s.task p = .idle) (hlock : s.Unlocked ip) (hnew : t.file = some ip)
    (hwrite : ∀ src off m tot, t = .write ip src off m tot → tot = 0)
    (hread : ∀ off m k got, t = .read ip off m k got → got = []) :
    Store.Has { s with task := update s.task p t } files := by
  refine hf.silent ip hs ?_ rfl fun f h => (hf.file ip f h).begins hlock hwrite hread
  refine .of_data s.type ?_ ?_ (fun _ _ => rfl) (fun _ _ => rfl) rfl
  · intro q hq
    rw [hp] at hq
    cases hq
  · intro q hq
    rw [hnew] at hq
    exact (Option.some.inj hq).symm

/-- A turn of `itrunc`. -/
theorem Store.Has.frees {k k' : ℕ} (hp : s.task p = .free ip k)
    (hs' : Store.Inv sys { s with vol := vol, task := update s.task p (.free ip k') })
    (hin : ∀ q ≠ ip, vol.inodes q = s.vol.inodes q) (hdata : vol.data = s.vol.data) :
    Store.Has { s with vol := vol, task := update s.task p (.free ip k') } files := by
  refine hf.silent ip hs ?_ rfl fun f _ => hs'.hasFile_free (p := p) (update_self ..)
  refine .of_data s.type ?_ ?_ (fun _ _ => rfl) hin hdata
  · intro q hq
    rw [hp] at hq
    exact (Option.some.inj hq).symm
  · intro q hq
    exact (Option.some.inj hq).symm

/-- **A step that shows nothing** leaves the files. -/
theorem Turn.silent (h : Turn p s none s') : s'.Has files := by
  have hs' := h.inv hs
  cases h with
  | write ip src off m hp hlock htype hdev hok =>
    refine hf.begins hs hp hlock rfl ?_ (fun off m k got h => by cases h)
    intro src' off' m' tot h
    cases h
    rfl
  | @table ip off m tot a src vol hp hlt ht hb =>
    obtain ⟨-, -, hok⟩ := hs.writing hp
    have hadd : Adds s.vol vol ip maxFile a := addrOf_adds hok (.inr ⟨rfl, rfl⟩) ht.2 hb
    have hv : Wrote s.vol vol ip (off + tot) 0 fun x => src (x - off) := hadd.wrote hok le_rfl
    have htask := hs.tasks p
    rw [hp] at htask
    have hmax := htask.2.2.2.1
    have hsame : update s.task p (.write ip src off m (tot + 0)) = s.task := by
      rw [Nat.add_zero, ← hp, update_eq_self]
    have hframe := hs.frame (tot + 0) hp hv
    have hfile (f : FileBytes) (h : files ip = some f) := (hf.file ip f h).wrote hs hp (by omega) hv
    rw [hsame] at hframe
    simp only [hsame] at hfile
    exact hf.silent ip hs hframe rfl hfile
  | @block ip off m tot a src vol hp hlt _ hb =>
    obtain ⟨hv, -⟩ := hs.block hp hlt hb
    have htask := hs.tasks p
    rw [hp] at htask
    have hmax := htask.2.2.2.1
    have hle := (chunk_spec off hlt).2.1
    exact hf.silent ip hs (hs.frame _ hp hv) rfl fun f h => (hf.file ip f h).wrote hs hp (by omega) hv
  | full => exact ⟨hf.live, fun ip f h => (hf.file ip f h).congr hs (fun hz => by simp [(hf.live ip).mpr hz] at h)
      (fun _ _ _ => Iff.rfl) rfl fun _ _ _ => ⟨rfl, rfl⟩⟩
  | read ip off m hp hlock htype hdev hok =>
    refine hf.begins hs hp hlock rfl (fun src off m tot h => by cases h) ?_
    intro off' m' k got h
    cases h
    rfl
  | @copyOut ip off m k a got vol hp hlt hb =>
    rw [hs.found hp hlt] at hb
    obtain ⟨rfl, rfl⟩ := Prod.mk.inj (Option.some.inj hb)
    refine hf.silent ip hs ?_ rfl fun f h => (hf.file ip f h).copyOut hs hp hlt
    refine .of_data s.type ?_ ?_ (fun _ _ => rfl) (fun _ _ => rfl) rfl
    · intro q hq
      rw [hp] at hq
      exact (Option.some.inj hq).symm
    · intro q hq
      exact (Option.some.inj hq).symm
  | noInodes => exact ⟨hf.live, fun ip f h => (hf.file ip f h).congr hs (fun hz => by simp [(hf.live ip).mpr hz] at h)
      (fun _ _ _ => Iff.rfl) rfl fun _ _ _ => ⟨rfl, rfl⟩⟩
  | free ip hp hlock htype =>
    exact hf.begins hs hp hlock rfl (fun src off m tot h => by cases h) (fun off m k got h => by cases h)
  | freeAddr hp hk hb => exact hf.frees hs hp hs' (freeAddr_gives hb).1.others (freeAddr_gives hb).1.data
  | noTable hp ht => exact hf.frees hs hp hs' (fun _ _ => rfl) rfl
  | @freeEntry ip k vol hp hk hk' ht hb =>
    exact hf.frees hs hp hs' (freeEntry_gives ip hb).1.others (freeEntry_gives ip hb).1.data
  | @freeTable ip vol hp hb =>
    have htask := hs.tasks p
    rw [hp] at htask
    have hgives := (bfree_gives ip (htask.2.2.2 (by rw [ndirect_eq, maxFile_eq]; omega) le_rfl) hb).1
    exact hf.frees hs hp hs' (hgives.setAddr (i := ndirect) (a := 0)).others hgives.data
  | freeFree hp hb => exact absurd hb (hs.no_freeFree hp)

/-- **A call that ends** has done what the store does. -/
theorem Turn.event {c : Call n} (h : Turn p s (some c) s') : ∃ files', FileStep files c files' ∧ s'.Has files' := by
  have hs' := h.inv hs
  cases h with
  | refuse ip src off m hp hlock htype hdev hbad =>
    obtain ⟨f, hfile⟩ := hf.exists_file htype
    have hhas := hf.file ip f hfile
    have hsize := hhas.size hlock.whole
    refine ⟨files, .refuse p _ hfile ((hhas.dev hlock.whole).symm.trans hdev) ?_, hf⟩
    rw [List.length_map, List.length_range, ← hsize]
    simp only [Volume.refuses, Volume.beyond] at hbad
    rcases hbad with (hbad | hbad) | hbad
    · exact .inl hbad
    · refine .inr ?_
      rw [maxFile_eq, bsize_eq]
      omega
    · exact .inr hbad
  | @written ip off m tot src hp hn =>
    obtain ⟨hip, hw, -⟩ := hs.writing hp
    obtain ⟨f, hfile⟩ := hf.exists_file hip
    have hhas := hf.file ip f hfile
    have htask := hs.tasks p
    rw [hp] at htask
    obtain ⟨hdev, htot, hoff, hmax, -⟩ := htask
    obtain rfl : tot = m := by omega
    have hlen : ((List.range tot).map src).length = tot := by rw [List.length_map, List.length_range]
    have hstep : FileStep files (.write p ip ((List.range tot).map src) off ((List.range tot).map src).length) _ :=
      .write p _ hfile ((hhas.dev hw).symm.trans hdev) (by rw [← hhas.size hw]; exact hoff) (by rw [hlen]; exact hmax)
    rw [hlen] at hstep
    refine ⟨_, hstep, hf.frame ip hs ?_ ?_ ?_⟩
    · refine .ends s.type (by rw [hp]; rfl) (fun _ _ => rfl) ?_ ?_
      · intro q hq
        rw [finish_eq hoff]
        exact extend_others hq
      · rw [finish_eq hoff]
        exact extend_blocks.2.2
    · exact ⟨fun h => (by cases h), fun h => absurd h hip⟩
    · intro g hg
      obtain rfl := Option.some.inj hg
      exact hhas.finish hs hp
  | readBad ip off m hp hlock htype hdev hbad =>
    obtain ⟨f, hfile⟩ := hf.exists_file htype
    have hhas := hf.file ip f hfile
    refine ⟨files, .readBad p m hfile ((hhas.dev hlock.whole).symm.trans hdev) ?_, hf⟩
    rw [← hhas.size hlock.whole]
    exact hbad
  | @got ip off m k got hp hn =>
    have hip := hs.alive p ip (by rw [hp]; rfl)
    have hw : s.Whole ip := hs.whole (p := p) (by rw [hp]; rfl) fun k hk => by rw [hp] at hk; cases hk
    obtain ⟨f, hfile⟩ := hf.exists_file hip
    have hhas := hf.file ip f hfile
    have hsize := hhas.size hw
    have htask := hs.tasks p
    rw [hp] at htask
    obtain ⟨hdev, hle, hoff, hword, hk⟩ := htask
    have hgot : got = (f.bytes.drop off).take m := by
      rw [hhas.got p off m k got hp]
      have hlen : got.length = min m (f.bytes.drop off).length := by
        rw [List.length_drop, ← hsize]
        omega
      rw [hlen, ← List.take_take, List.take_length]
    have hstep := FileStep.read p m hfile ((hhas.dev hw).symm.trans hdev) (hsize ▸ hoff) hword
    rw [← hgot] at hstep
    refine ⟨files, hstep, hf.silent ip hs ?_ rfl ?_⟩
    · exact .ends s.type (by rw [hp]; rfl) (fun _ _ => rfl) (fun _ _ => rfl) rfl
    · intro g hg
      obtain rfl := Option.some.inj (hfile.symm.trans hg)
      refine .of_unlocked (hs.unlocked s.vol s.type (by rw [hp]; rfl)) (hhas.dev hw) hsize ?_
      intro x hx
      refine hhas.bytes hw x hx ?_
      intro a src' off' m' tot' ha
      obtain rfl := hs.locks a p ip (by rw [ha]; rfl) (by rw [hp]; rfl)
      rw [hp] at ha
      cases ha
  | @make ip ty dev ht hp hfree =>
    have hz := freeInode_spec hfree
    refine ⟨_, .make p dev ((hf.live ip).mpr hz) (freeInode_pos hfree), hf.frame ip hs ?_ ?_ ?_⟩
    · refine ⟨fun q hq => update_of_ne hq _ _, fun _ _ _ _ _ => Iff.rfl, fun q hq => update_of_ne hq _ _, ?_⟩
      intro q hq _ i _ _
      exact ⟨slot_congr (update_of_ne hq _ _) fun _ => rfl, rfl⟩
    · refine ⟨fun h => (by cases h), fun h => absurd ?_ ht⟩
      dsimp only at h
      rwa [update_self] at h
    · intro g hg
      obtain rfl := Option.some.inj hg
      refine .of_unlocked ?_ ?_ ?_ ?_
      · intro a ha
        exact hs.alive a ip ha hz
      · simp [emptyInode]
      · simp [emptyInode]
      · intro x hx
        simp at hx
  | @freed ip hp =>
    have hip := hs.alive p ip (by rw [hp]; rfl)
    obtain ⟨f, hfile⟩ := hf.exists_file hip
    refine ⟨_, .remove p hfile, hf.frame ip hs ?_ ?_ ?_⟩
    · refine .ends _ (by rw [hp]; rfl) (fun q hq => update_of_ne hq _ _) (fun q hq => update_of_ne hq _ _) rfl
    · exact ⟨fun _ => update_self .., fun _ => rfl⟩
    · intro g hg
      cases hg

end Steps

/-! ### Runs -/

/-- Between calls the files are those on the disk. -/
theorem Store.has_files (hidle : ∀ p, s.task p = .idle) : s.Has s.files := by
  have hnone (ip : ℕ) : s.files ip = none ↔ s.type ip = 0 := by
    simp only [Store.files]
    split
    · rename_i hz
      exact ⟨fun _ => hz, fun _ => rfl⟩
    · rename_i hz
      exact ⟨fun h => (by cases h), fun h => absurd h hz⟩
  refine ⟨hnone, ?_⟩
  intro ip f hf
  have hip : s.type ip ≠ 0 := by
    intro hz
    rw [(hnone ip).mpr hz] at hf
    cases hf
  simp only [Store.files] at hf
  rw [if_neg hip] at hf
  obtain rfl := Option.some.inj hf
  refine .of_unlocked ?_ rfl ?_ ?_
  · intro p hp
    rw [hidle p] at hp
    cases hp
  · simp [Volume.contents]
  · intro x hx
    rw [Volume.contents, List.length_map, List.length_range] at hx
    rw [Volume.contents, List.getElem?_map, List.getElem?_range hx]
    rfl

/-- A file that nobody works on. -/
theorem Store.Has.files_eq (h : s.Has files) (hlock : s.Unlocked ip) : s.files ip = files ip := by
  simp only [Store.files]
  split
  · rename_i hz
    exact ((h.live ip).mpr hz).symm
  · rename_i hip
    obtain ⟨f, hf⟩ := h.exists_file hip
    have hfile := h.file ip f hf
    have hsize := hfile.size hlock.whole
    have hbytes : s.vol.contents ip = f.bytes := by
      refine List.ext_getElem? fun x => ?_
      rw [Volume.contents, List.getElem?_map]
      rcases Nat.lt_or_ge x f.bytes.length with hx | hx
      · rw [List.getElem?_range (by omega), hfile.bytes hlock.whole x hx]
        · rfl
        · intro a src off m tot ha
          exact absurd (by rw [ha]; rfl) (hlock a)
      · rw [List.getElem?_eq_none (by rw [List.length_range]; omega), List.getElem?_eq_none hx]
        rfl
    rw [hf, hbytes, hfile.dev hlock.whole]

/-- **The disk is a store of files**: what the calls of any number of processes return, whose turns come in any
order, is what the store returns where each call is one step; and a file that nobody works on has the bytes
that it has in the store. -/
theorem Store.refines {s₀ : Store n} {es : List (Call n)} (h : Shows Store.Step s₀ es s) (h₀ : s₀.Inv sys)
    (hidle : ∀ p, s₀.task p = .idle) :
    ∃ files, Accepts FileStep s₀.files es files ∧ ∀ ip, s.Unlocked ip → s.files ip = files ip := by
  obtain ⟨files, hfiles, hhas⟩ := h.simulates (J := Store.Inv sys) (I := Store.Has) (T := FileStep)
    (fun x o y hxy hx => by
      cases hxy with
      | turn p _ h => exact h.inv hx)
    (fun x y u hxy hx hu => by
      cases hxy with
      | turn p _ h => exact h.silent hx hu)
    (fun x e y u hxy hx hu => by
      cases hxy with
      | turn p _ h => exact h.event hx hu)
    h₀ (Store.has_files hidle)
  exact ⟨files, hfiles, fun ip hip => hhas.files_eq hip⟩

theorem refines_first : ∃ s files, Shows Store.Step emptyStore [.make 0 1 none, .make 1 2 none, .write 1 2 [9] 0 1, .write 0 1 [7, 7] 0 2] s ∧
    Accepts FileStep emptyStore.files [.make (0 : Fin 2) 1 none, .make 1 2 none, .write 1 2 [9] 0 1, .write 0 1 [7, 7] 0 2] files ∧
    ∀ ip, s.Unlocked ip → s.files ip = files ip := by
  obtain ⟨s, h, -, -⟩ := emptyStore_run
  obtain ⟨files, hfiles, heq⟩ := Store.refines h emptyStore_inv fun _ => rfl
  exact ⟨s, files, h, hfiles, heq⟩

end SdeSystems.Disk
