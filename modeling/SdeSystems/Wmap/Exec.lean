import SdeSystems.Wmap.Process

/-!
# `exec`

`exec.c`, with `loaduvm`, `clearpteu`, `uva2ka` and `copyout` of `vm.c`. `namei` is not part of this:
the inode that the path leads to is an argument. So are the strings of `argv`, which `sys_exec` has
fetched. The new values of `eip` and `esp` are left out, since nothing here runs user code.
-/

namespace SdeSystems.Wmap

open Lib Function

/-! ### The program -/

/-- The `n` bytes from `i` on as a number, low byte first. -/
def leBytes (bytes : List UInt8) (i : ℕ) : ℕ → ℕ
  | 0 => 0
  | n + 1 => (bytes.getD i 0).toNat + 256 * leBytes bytes (i + 1) n

/-- What `exec` works on until it commits: memory and the new page directory, the inode of the program, and
`sz`. -/
structure Image where
  /-- Memory and the new page directory. -/
  space : Space
  /-- The inode of the program. -/
  inode : Inode
  /-- `sz`. -/
  sz : ℕ

/-- The body of the loop of `loaduvm`. The pages are there: `exec` has just had them mapped. -/
def loadPage (addr offset sz i : ℕ) (s : Image) : Option (Image × Bool) :=
  match s.space.pgdir.pte (addr + i) with
  | none => none
  | some e =>
    let n := if sz - i < 4096 then sz - i else 4096
    match readi s.inode (u32 (offset + i)) n with
    | none => none
    | some (inode, none) => some ({ s with inode := inode }, false)
    | some (inode, some bytes) =>
      let mem := s.space.mem.fill e.page fun x => bytes.getD x (s.space.mem.bytes e.page x)
      some ({ s with space := { s.space with mem := mem }, inode := inode }, bytes.length = n)

/-- `loaduvm(pgdir, addr, ip, offset, sz)`: whether it succeeds. -/
def loaduvm (addr offset sz : ℕ) (s : Image) : Option (Image × Bool) :=
  if addr % 4096 ≠ 0 then none else forPages 0 sz (loadPage addr offset sz) s

/-- One turn of the loop over the program headers, for the one at `off`: whether to go on. -/
def loadSegment (off : ℕ) (s : Image) : Option (Image × Bool) :=
  match readi s.inode off 32 with
  | none => none
  | some (inode, none) => some ({ s with inode := inode }, false)
  | some (inode, some ph) =>
    let s := { s with inode := inode }
    let vaddr := leBytes ph 8 4
    let filesz := leBytes ph 16 4
    let memsz := leBytes ph 20 4
    if ph.length ≠ 32 then some (s, false)
    else if leBytes ph 0 4 ≠ 1 then some (s, true)
    else if memsz < filesz then some (s, false)
    else if u32 (vaddr + memsz) < vaddr then some (s, false)
    else
      match allocuvm s.space s.sz (u32 (vaddr + memsz)) with
      | none => none
      | some (space, sz) =>
        let s := { s with space := space, sz := sz }
        if sz = 0 then some (s, false)
        else if vaddr % 4096 ≠ 0 then some (s, false)
        else loaduvm vaddr (leBytes ph 4 4) filesz s

/-- Where the program headers are, from `elf.phoff` on. -/
def phOffsets (elf : List UInt8) : List ℕ :=
  (List.range (leBytes elf 44 2)).map fun i => u32 (leBytes elf 28 4 + 32 * i)

/-! ### The stack -/

/-- `clearpteu(pgdir, uva)`. -/
def clearpteu (pgdir : PageDir) (uva : ℕ) : Option PageDir :=
  match pgdir.tables (pdx uva) with
  | none => none
  | some _ => some (pgdir.setPte uva ((pgdir.pte uva).map fun e => { e with u := false }))

/-- `uva2ka(pgdir, uva)`: the page, or 0. Where there is no page table the code reads through a null pointer. -/
def uva2ka (pgdir : PageDir) (uva : ℕ) : Option (Option ℕ) :=
  match pgdir.tables (pdx uva) with
  | none => none
  | some _ => some ((pgdir.pte uva).bind fun e => if e.u then some e.page else none)

/-- The loop of `copyout(pgdir, va, p, len)`. -/
def copyoutLoop : ℕ → ℕ → List UInt8 → Space → Option (Space × Bool)
  | _, _, [], s => some (s, true)
  | 0, _, _ :: _, _ => none
  | fuel + 1, va, b :: bs, s =>
    match uva2ka s.pgdir (pgrounddown va) with
    | none => none
    | some none => some (s, false)
    | some (some page) =>
      let n := min (4096 - (va - pgrounddown va)) (b :: bs).length
      let mem := s.mem.fill page fun x =>
        if va - pgrounddown va ≤ x ∧ x < va - pgrounddown va + n then (b :: bs).getD (x - (va - pgrounddown va)) 0
        else s.mem.bytes page x
      copyoutLoop fuel (u32 (pgrounddown va + 4096)) ((b :: bs).drop n) { s with mem := mem }

/-- `copyout(pgdir, va, p, len)`, `bytes` being the bytes at `p`: whether it succeeds. -/
def copyout (s : Space) (va : ℕ) (bytes : List UInt8) : Option (Space × Bool) := copyoutLoop bytes.length va bytes s

/-- The loop that pushes the argument strings: `sp` and the addresses of the strings, if it comes to its end. -/
def pushArgs : List (List UInt8) → ℕ → List ℕ → Space → Option (Space × Option (ℕ × List ℕ))
  | [], sp, args, s => some (s, some (sp, args))
  | arg :: argv, sp, args, s =>
    if 32 ≤ args.length then some (s, none)
    else
      let sp := u32 (sp - (arg.length + 1)) / 4 * 4
      match copyout s sp (arg ++ [0]) with
      | none => none
      | some (s, false) => some (s, none)
      | some (s, true) => pushArgs argv sp (args ++ [sp]) s

/-- The bytes of a word. -/
def wordBytes (w : ℕ) : List UInt8 := (List.range 4).map fun i => UInt8.ofNat (w / 256 ^ i)

/-- The arguments and `ustack` are pushed: whether it succeeds. -/
def pushStack (argv : List (List UInt8)) (sz : ℕ) (s : Space) : Option (Space × Bool) :=
  match pushArgs argv sz [] s with
  | none => none
  | some (s, none) => some (s, false)
  | some (s, some (sp, args)) =>
    let argc := args.length
    let ustack := [0xffffffff, argc, u32 (sp - (argc + 1) * 4)] ++ args ++ [0]
    copyout s (u32 (sp - (3 + argc + 1) * 4)) (ustack.flatMap wordBytes)

/-! ### `exec` -/

/-- The new image: the segments and the stack. Whether it succeeds, or jumps to `bad`. -/
def buildImage (elf : List UInt8) (argv : List (List UInt8)) (s : Image) : Option (Image × Bool) :=
  match forEach loadSegment (phOffsets elf) s with
  | none => none
  | some (s, false) => some (s, false)
  | some (s, true) =>
    let sz := pgroundup s.sz
    match allocuvm s.space sz (u32 (sz + 2 * 4096)) with
    | none => none
    | some (space, sz) =>
      if sz = 0 then some ({ s with space := space, sz := sz }, false)
      else
        match clearpteu space.pgdir (u32 (sz - 2 * 4096)) with
        | none => none
        | some pgdir =>
          (pushStack argv sz { space with pgdir := pgdir }).map fun (space, ok) =>
            ({ s with space := space, sz := sz }, ok)

/-- `exec(path, argv)`, `ip` being the inode of the path, if there is one. -/
def exec (k : Kernel) (p : Fin 64) (ip : Option ℕ) (argv : List (List UInt8)) : Option (Kernel × ℤ) :=
  match ip with
  | none => some (k, -1)
  | some ip =>
    let withInode (inode : Inode) : Fs := { k.fs with inodes := update k.fs.inodes ip inode }
    match readi (k.fs.inodes ip) 0 52 with
    | none => none
    | some (inode, none) => some ({ k with fs := withInode inode }, -1)
    | some (inode, some elf) =>
      if elf.length ≠ 52 then some ({ k with fs := withInode inode }, -1)
      else if leBytes elf 0 4 ≠ 0x464C457F then some ({ k with fs := withInode inode }, -1)
      else
        match setupkvm k.mem with
        | none => none
        | some (mem, none) => some ({ k with mem := mem, fs := withInode inode }, -1)
        | some (mem, some pgdir) =>
          match buildImage elf argv ⟨⟨mem, pgdir⟩, inode, 0⟩ with
          | none => none
          | some (s, false) =>
            (freevm s.space).map fun mem => ({ k with mem := mem, fs := withInode s.inode }, -1)
          | some (s, true) =>
            (freevm ⟨s.space.mem, (k.procs p).pgdir⟩).map fun mem =>
              ({ k.setProc p { k.procs p with pgdir := s.space.pgdir, sz := s.sz } with
                mem := mem, fs := withInode s.inode }, 0)

end SdeSystems.Wmap
