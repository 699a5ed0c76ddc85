import XClone.Kernel.FileSystem
import XClone.Library.BlockCipher
import XClone.Library.CInt
import XClone.Library.Interleaving
import Mathlib.Tactic.Simps.Basic

/-! # The kernel interface of the module

Everything the module asks of the kernel is a call with a typed answer. A task
carries its private kernel state: address limit, allocations, open files, the
uninitialised bytes it will be given and the faults it will meet. The file system
is shared. Faults are lists consumed one entry per call; an exhausted list means
that the call succeeds in full, so the empty lists are the fault-free schedule and
lists of any length describe every sequence of results the kernel may return.
-/
namespace XClone
open Effects

/-- Kernel pointers; `none` is `NULL`. -/
abbrev Ptr := Option ℕ

/-- The two address limits of a task. -/
inductive Seg where
  | userDs
  | kernelDs
deriving DecidableEq, Repr

/-- Broken-down time as `time_to_tm` fills it in. -/
structure Tm where
  tmYear : ℤ
  tmMon : ℤ
  tmMday : ℤ
deriving DecidableEq, Repr

/-- What lies outside the module: the ciphers, the compressor, the calendar, and the surroundings of its memory. -/
structure Platform where
  aes : List Byte → Equiv.Perm (BlockCipher.Block 16)
  aesIv : BlockCipher.Block 16
  deflate : List Byte → List Byte
  inflate : List Byte → List Byte
  timeToTm : ℕ → Tm
  /-- What `d_path` makes of a path when its buffer is `NULL`; `none` is the death of the caller. -/
  dPathNull : Path → Option Path
  /-- What a read of so many bytes finds when it begins at a shorter buffer; `none` is the death of the reader. -/
  overrun : List Byte → ℕ → Option (List Byte)
  /-- The directories there are. -/
  directory : Path → Bool

/-- The calendar on the first day of the epoch, no cipher and no compression; unmapped memory around everything. -/
def Platform.bare : Platform :=
  ⟨fun _ => Equiv.refl _,fun _ => 0,id,id,fun _ => ⟨70,0,1⟩,fun _ => none,fun _ _ => none,fun _ => true⟩

/-- How much of a transfer the kernel carries out. -/
inductive Outcome where
  | full
  | short (n : ℕ)
  | fail (e : ℕ)
deriving DecidableEq, Repr

/-- The result of a transfer of at most `n` bytes: a count, or a negative error. -/
def Outcome.count : Outcome → ℕ → ℤ
  | full, n => n
  | short k, n => (min k n : ℕ)
  | fail e, _ => Int.negSucc e

theorem Outcome.count_le (o : Outcome) (n : ℕ) : o.count n ≤ n := by
  cases o with
  | full => exact le_rfl
  | short k => simp only [count]; omega
  | fail e => simp only [count]; omega

/-- A call that may fail; the error is negative. -/
abbrev Fault := Option ℕ

def Fault.code : Fault → ℤ
  | none => 0
  | some e => Int.negSucc e

/-- The faults still to come, per kind of call. -/
structure Faults where
  allocs : List Bool := []
  opens : List Fault := []
  reads : List Outcome := []
  writes : List Outcome := []
  unlinks : List Fault := []
  xattrs : List Fault := []
  ciphers : List Fault := []
  setkeys : List Fault := []
  encrypts : List Fault := []
  comps : List Fault := []
  compressions : List Fault := []
deriving DecidableEq, Repr

namespace Faults

def popAlloc (f : Faults) : Faults := { f with allocs := f.allocs.tail }
def popOpen (f : Faults) : Faults := { f with opens := f.opens.tail }
def popRead (f : Faults) : Faults := { f with reads := f.reads.tail }
def popWrite (f : Faults) : Faults := { f with writes := f.writes.tail }
def popUnlink (f : Faults) : Faults := { f with unlinks := f.unlinks.tail }
def popXattr (f : Faults) : Faults := { f with xattrs := f.xattrs.tail }
def popCipher (f : Faults) : Faults := { f with ciphers := f.ciphers.tail }
def popSetkey (f : Faults) : Faults := { f with setkeys := f.setkeys.tail }
def popEncrypt (f : Faults) : Faults := { f with encrypts := f.encrypts.tail }
def popComp (f : Faults) : Faults := { f with comps := f.comps.tail }
def popCompression (f : Faults) : Faults := { f with compressions := f.compressions.tail }

end Faults

/-- Allocated memory. Addresses are never reused, so a stale pointer stays recognisable. -/
structure Heap where
  live : ℕ → Option (List Byte)
  next : ℕ
  doubleFree : Bool
  fresh : ∀ a, next ≤ a → live a = none

def Heap.empty : Heap := ⟨fun _ => none,0,false,fun _ _ => rfl⟩

theorem Heap.lt_next {h : Heap} {a : ℕ} {bytes : List Byte} (ha : h.live a = some bytes) : a < h.next := by
  by_contra hle
  rw [h.fresh a (Nat.not_lt.mp hle)] at ha
  cases ha

structure Task where
  cwd : Path
  now : ℕ
  addrLimit : Seg
  heap : Heap
  opened : List File
  garbage : List (List Byte)
  stack : List Byte
  faults : Faults

/-- A task that has allocated and opened nothing yet. -/
def Task.fresh (cwd : Path) (now : ℕ) (faults : Faults) : Task :=
  ⟨cwd,now,.userDs,Heap.empty,[],[],[],faults⟩

/-- A freshly allocated buffer and the bytes found in it. -/
structure Buf where
  addr : ℕ
  bytes : List Byte
deriving DecidableEq, Repr

inductive Call where
  | getFs
  | setFs (seg : Seg)
  | kmalloc (size : ℕ)
  | kfree (p : Ptr)
  | readString (p : Ptr)
  | stackBytes (n : ℕ)
  | doGettimeofday
  | filpOpen (fname : Path) (create : Bool)
  | filpClose (f : File)
  | iSizeRead (f : File)
  | vfsRead (f : File) (pos len : ℤ)
  | vfsReadNull (f : File) (pos len : ℤ)
  | vfsWrite (f : File) (pos : ℤ) (buf : List Byte) (len : ℤ)
  | vfsWriteNull (f : File) (pos len : ℤ)
  | vfsUnlink (f : File)
  | vfsSetxattr (f : File) (value : List Byte)
  | cryptoAllocBlkcipher
  | cryptoBlkcipherSetkey (key : List Byte)
  | cryptoBlkcipherEncrypt (key src : List Byte) (nbytes : ℕ)
  | cryptoAllocComp
  | cryptoCompCompress (src : List Byte) (slen : ℤ) (dlen : Option ℤ)
  | cryptoCompDecompress (src : List Byte) (slen : ℤ)
  | oops
deriving DecidableEq, Repr

/-- What each call returns. A failed open is the negative error code. -/
@[reducible] def Answer : Call → Type
  | .getFs => Seg
  | .setFs _ => Unit
  | .kmalloc _ => Option Buf
  | .kfree _ => Unit
  | .readString _ => List Byte
  | .stackBytes _ => List Byte
  | .doGettimeofday => ℕ
  | .filpOpen _ _ => Except ℤ File
  | .filpClose _ => Unit
  | .iSizeRead _ => ℤ
  | .vfsRead _ _ _ => ℤ × List Byte
  | .vfsReadNull _ _ _ => ℤ
  | .vfsWrite _ _ _ _ => ℤ
  | .vfsWriteNull _ _ _ => ℤ
  | .vfsUnlink _ => ℤ
  | .vfsSetxattr _ _ => ℤ
  | .cryptoAllocBlkcipher => ℤ
  | .cryptoBlkcipherSetkey _ => ℤ
  | .cryptoBlkcipherEncrypt _ _ _ => ℤ × List Byte
  | .cryptoAllocComp => ℤ
  | .cryptoCompCompress _ _ _ => ℤ × List Byte
  | .cryptoCompDecompress _ _ => ℤ × List Byte
  | .oops => Empty

abbrev KProg (α : Type) := Prog Call Answer α

/-- One call of the module into the kernel. -/
abbrev kcall (c : Call) : KProg (Answer c) := Prog.perform c

/-- The kernel as one task sees it. -/
abbrev Kernel := Task × Fs

/-- Memory handed out holds whatever was left there, up to the size asked for. -/
def leftover (garbage : List Byte) (size : ℕ) : List Byte :=
  garbage.take size ++ List.replicate (size - garbage.length) 0

def Heap.alloc (h : Heap) (bytes : List Byte) : Heap where
  live := Function.update h.live h.next (some bytes)
  next := h.next + 1
  doubleFree := h.doubleFree
  fresh a ha := (Function.update_of_ne (by omega) _ _).trans (h.fresh a (by omega))

/-- Give up one cell. -/
def Heap.drop (h : Heap) (a : ℕ) : Heap where
  live := Function.update h.live a none
  next := h.next
  doubleFree := h.doubleFree
  fresh b hb := by
    by_cases he : b = a
    · rw [he, Function.update_self]
    · rw [Function.update_of_ne he, h.fresh b hb]

/-- `kfree`: `NULL` is ignored, a dead buffer is a double free. -/
def Heap.free (h : Heap) : Ptr → Heap
  | none => h
  | some a => if (h.live a).isSome then h.drop a else { h with doubleFree := true }

theorem Heap.free_live_of_ne (h : Heap) {a b : ℕ} (hab : a ≠ b) : (h.free (some b)).live a = h.live a := by
  simp only [Heap.free]
  by_cases hb : (h.live b).isSome
  · rw [if_pos hb]
    exact Function.update_of_ne hab _ _
  · rw [if_neg hb]

/-- The bytes of a C string, up to its terminator. -/
def cString (bytes : List Byte) : List Byte := bytes.takeWhile (· ≠ 0)

/-! ## What a call does to its task -/

/-- The task after a call has consumed its fault. -/
@[simps] def Task.spend (t : Task) (pop : Faults → Faults) : Task := { t with faults := pop t.faults }

@[simps] def Task.limit (t : Task) (seg : Seg) : Task := { t with addrLimit := seg }

@[simps] def Task.freed (t : Task) (p : Ptr) : Task := { t with heap := t.heap.free p }

@[simps] def Task.opening (t : Task) (f : File) : Task := { t with opened := f :: t.opened }

@[simps] def Task.closing (t : Task) (f : File) : Task := { t with opened := t.opened.erase f }

@[simps] def Task.given (t : Task) (bytes : List Byte) : Task := { t with heap := t.heap.alloc bytes }

/-- The leftover bytes of one allocation are used up. -/
@[simps] def Task.dig (t : Task) : Task := { t with garbage := t.garbage.tail }

/-- Allocation: the next fault decides, the given bytes fill the buffer. -/
def Task.kmalloc (t : Task) (bytes : List Byte) : Option Buf × Task :=
  if t.faults.allocs.headD false then (none,t.spend .popAlloc)
  else (some ⟨t.heap.next,bytes⟩,(t.spend .popAlloc).given bytes)

/-- The errors of the file layer that do not come from a fault list. -/
def enoent : ℤ := -2
def efault : ℤ := -14
def einval : ℤ := -22

/-- The result of a transfer of at most `n` bytes through `NULL`: it fails as soon as there is a byte to be moved. -/
def Outcome.countNull : Outcome → ℕ → ℤ
  | fail e, _ => Int.negSucc e
  | _, n => if n = 0 then 0 else efault

/-- The `n` bytes that a service finds at a buffer, also beyond its end. -/
def Platform.found (P : Platform) (src : List Byte) (n : ℕ) : Option (List Byte) :=
  if n ≤ src.length then some (src.take n) else P.overrun src n

/-- The (de)compressor on an input of `n` bytes: it refuses one behind `NULL`, whose buffer is empty, and dies where its
input cannot be read. -/
def Platform.convert (P : Platform) (f : List Byte → List Byte) (src : List Byte) (n : ℕ) : Option (ℤ × List Byte) :=
  if src = [] ∧ n ≠ 0 then some (einval,[]) else (P.found src n).map (fun x => (0,f x))

def Kernel.handle (P : Platform) : Handler Call Answer Kernel
  | .getFs, (t,fs) => (some t.addrLimit,t,fs)
  | .setFs seg, (t,fs) => (some (),t.limit seg,fs)
  | .kmalloc size, (t,fs) =>
    let r := t.dig.kmalloc (leftover (t.garbage.headD []) size)
    (some r.1,r.2,fs)
  | .kfree p, (t,fs) => (some (),t.freed p,fs)
  | .readString p, (t,fs) => ((p.bind t.heap.live).map cString,t,fs)
  | .stackBytes n, (t,fs) => (some (leftover t.stack n),t,fs)
  | .doGettimeofday, (t,fs) => (some t.now,t,fs)
  | .filpOpen fname create, (t,fs) =>
    let path := resolve t.cwd fname
    match t.faults.opens.headD none with
    | some e => (some (.error (Int.negSucc e)),t.spend .popOpen,fs)
    | none =>
      match (fs path).openInode (create && P.directory (parent path)) with
      | none => (some (.error enoent),t.spend .popOpen,fs)
      | some (i,s) =>
        (some (.ok ⟨path,i⟩),(t.spend .popOpen).opening ⟨path,i⟩,Function.update fs path s)
  | .filpClose f, (t,fs) => (some (),t.closing f,fs)
  | .iSizeRead f, (t,fs) => (some (fs.content f).length,t,fs)
  | .vfsRead f pos len, (t,fs) =>
    if pos < 0 ∨ len < 0 then (some (einval,[]),t.spend .popRead,fs)
    else
      let avail := ((fs.content f).drop pos.toNat).take len.toNat
      let n := (t.faults.reads.headD .full).count avail.length
      (some (n,avail.take n.toNat),t.spend .popRead,fs)
  | .vfsReadNull f pos len, (t,fs) =>
    if pos < 0 ∨ len < 0 then (some einval,t.spend .popRead,fs)
    else
      let avail := ((fs.content f).drop pos.toNat).take len.toNat
      (some ((t.faults.reads.headD .full).countNull avail.length),t.spend .popRead,fs)
  | .vfsWrite f pos buf len, (t,fs) =>
    if pos < 0 ∨ len < 0 then (some einval,t.spend .popWrite,fs)
    else
      let data := buf.take len.toNat
      let n := (t.faults.writes.headD .full).count data.length
      (some n,t.spend .popWrite,
        Function.update fs f.path ((fs f.path).write f.inode pos.toNat (data.take n.toNat)))
  | .vfsWriteNull _ pos len, (t,fs) =>
    if pos < 0 ∨ len < 0 then (some einval,t.spend .popWrite,fs)
    else (some ((t.faults.writes.headD .full).countNull len.toNat),t.spend .popWrite,fs)
  | .vfsUnlink f, (t,fs) =>
    match t.faults.unlinks.headD none with
    | some e => (some (Int.negSucc e),t.spend .popUnlink,fs)
    | none =>
      match (fs f.path).unlink f.inode with
      | none => (some enoent,t.spend .popUnlink,fs)
      | some s => (some 0,t.spend .popUnlink,Function.update fs f.path s)
  | .vfsSetxattr _ _, (t,fs) => (some (t.faults.xattrs.headD none).code,t.spend .popXattr,fs)
  | .cryptoAllocBlkcipher, (t,fs) => (some (t.faults.ciphers.headD none).code,t.spend .popCipher,fs)
  | .cryptoBlkcipherSetkey _, (t,fs) => (some (t.faults.setkeys.headD none).code,t.spend .popSetkey,fs)
  | .cryptoBlkcipherEncrypt key src nbytes, (t,fs) =>
    -- the cipher walks past the scatter list it was given
    if src.length < nbytes then (none,t.spend .popEncrypt,fs)
    else
      match t.faults.encrypts.headD none with
      | some e => (some (Int.negSucc e,[]),t.spend .popEncrypt,fs)
      | none =>
        (some (0,BlockCipher.encryptBytes (P.aes key) P.aesIv (src.take nbytes)),t.spend .popEncrypt,fs)
  | .cryptoAllocComp, (t,fs) => (some (t.faults.comps.headD none).code,t.spend .popComp,fs)
  | .cryptoCompCompress src slen dlen, (t,fs) =>
    match t.faults.compressions.headD none with
    | some e => (some (Int.negSucc e,[]),t.spend .popCompression,fs)
    -- no output fits into no room; whether it fits into some room, or into what an unset length says, is up to the faults
    | none => if dlen = some 0 then (some (einval,[]),t.spend .popCompression,fs)
      else (P.convert P.deflate src (CInt.toUInt slen),t.spend .popCompression,fs)
  | .cryptoCompDecompress src slen, (t,fs) =>
    match t.faults.compressions.headD none with
    | some e => (some (Int.negSucc e,[]),t.spend .popCompression,fs)
    | none => (P.convert P.inflate src (CInt.toUInt slen),t.spend .popCompression,fs)
  | .oops, (t,fs) => (none,t,fs)

/-! ## Locality: a call meets the file system at one path at most -/

def Call.touch : Call → Task → Option Path
  | .filpOpen fname _, t => some (resolve t.cwd fname)
  | .iSizeRead f, _ => some f.path
  | .vfsRead f _ _, _ => some f.path
  | .vfsReadNull f _ _, _ => some f.path
  | .vfsWrite f _ _ _, _ => some f.path
  | .vfsUnlink f, _ => some f.path
  | _, _ => none

theorem handle_frame (P : Platform) (c : Call) (t : Task) (fs : Fs) {path : Path}
    (h : c.touch t ≠ some path) : (Kernel.handle P c (t,fs)).2.2 path = fs path := by
  have hne : ∀ q, some q ≠ some path → path ≠ q := fun q hq he => hq (he ▸ rfl)
  cases c with
  | filpOpen fname create =>
    have hp := hne _ h
    simp only [Kernel.handle]
    split
    · rfl
    · split
      · rfl
      · exact Function.update_of_ne hp _ _
  | vfsWrite f pos buf len =>
    have hp := hne _ h
    simp only [Kernel.handle]
    split
    · rfl
    · exact Function.update_of_ne hp _ _
  | vfsUnlink f =>
    have hp := hne _ h
    simp only [Kernel.handle]
    split
    · rfl
    · split
      · rfl
      · exact Function.update_of_ne hp _ _
  | _ =>
    simp only [Kernel.handle]
    repeat' split
    all_goals rfl

theorem handle_congr (P : Platform) (c : Call) (t : Task) (fs gs : Fs)
    (h : ∀ path, c.touch t = some path → fs path = gs path) :
    (Kernel.handle P c (t,fs)).1 = (Kernel.handle P c (t,gs)).1 ∧
    (Kernel.handle P c (t,fs)).2.1 = (Kernel.handle P c (t,gs)).2.1 ∧
    ∀ path, c.touch t = some path →
      (Kernel.handle P c (t,fs)).2.2 path = (Kernel.handle P c (t,gs)).2.2 path := by
  cases c with
  | filpOpen fname create =>
    have hp := h _ rfl
    simp only [Kernel.handle, hp]
    split
    · exact ⟨rfl,rfl,h⟩
    · split
      · exact ⟨rfl,rfl,h⟩
      · refine ⟨rfl,rfl,?_⟩
        rintro path ⟨rfl⟩
        simp
  | iSizeRead f => simpa [Kernel.handle, Fs.content, h _ rfl] using h
  | vfsRead f pos len =>
    simp only [Kernel.handle, Fs.content, h _ rfl]
    split <;> exact ⟨rfl,rfl,h⟩
  | vfsReadNull f pos len =>
    simp only [Kernel.handle, Fs.content, h _ rfl]
    split <;> exact ⟨rfl,rfl,h⟩
  | vfsWrite f pos buf len =>
    have hp := h _ rfl
    simp only [Kernel.handle, hp]
    split
    · exact ⟨rfl,rfl,h⟩
    · refine ⟨rfl,rfl,?_⟩
      rintro path ⟨rfl⟩
      simp
  | vfsUnlink f =>
    have hp := h _ rfl
    simp only [Kernel.handle, hp]
    split
    · exact ⟨rfl,rfl,h⟩
    · split
      · exact ⟨rfl,rfl,h⟩
      · refine ⟨rfl,rfl,?_⟩
        rintro path ⟨rfl⟩
        simp
  | _ =>
    refine ⟨?_,?_,fun path hp => by cases hp⟩
    all_goals
      simp only [Kernel.handle]
      repeat' split
    all_goals rfl

/-- Two tasks over one file system. -/
def sharing (P : Platform) : Sharing Call Answer Task Path Slot where
  act := Kernel.handle P
  touch := Call.touch
  act_congr := handle_congr P
  act_frame := fun c t fs _ h => handle_frame P c t fs h

/-! ## Equations of the calls -/
section Equations
variable (P : Platform) (t : Task) (fs : Fs)

@[simp] theorem handle_getFs : Kernel.handle P .getFs (t,fs) = (some t.addrLimit,t,fs) := rfl
@[simp] theorem handle_setFs (seg : Seg) :
    Kernel.handle P (.setFs seg) (t,fs) = (some (),t.limit seg,fs) := rfl
@[simp] theorem handle_kfree (p : Ptr) : Kernel.handle P (.kfree p) (t,fs) = (some (),t.freed p,fs) := rfl
@[simp] theorem handle_stackBytes (n : ℕ) :
    Kernel.handle P (.stackBytes n) (t,fs) = (some (leftover t.stack n),t,fs) := rfl
@[simp] theorem handle_doGettimeofday : Kernel.handle P .doGettimeofday (t,fs) = (some t.now,t,fs) := rfl
@[simp] theorem handle_filpClose (f : File) :
    Kernel.handle P (.filpClose f) (t,fs) = (some (),t.closing f,fs) := rfl
@[simp] theorem handle_iSizeRead (f : File) :
    Kernel.handle P (.iSizeRead f) (t,fs) = (some ((fs.content f).length : ℤ),t,fs) := rfl
@[simp] theorem handle_vfsSetxattr (f : File) (value : List Byte) :
    Kernel.handle P (.vfsSetxattr f value) (t,fs) =
      (some (t.faults.xattrs.headD none).code,t.spend .popXattr,fs) := rfl
@[simp] theorem handle_cryptoAllocComp :
    Kernel.handle P .cryptoAllocComp (t,fs) = (some (t.faults.comps.headD none).code,t.spend .popComp,fs) := rfl
@[simp] theorem handle_cryptoAllocBlkcipher :
    Kernel.handle P .cryptoAllocBlkcipher (t,fs) =
      (some (t.faults.ciphers.headD none).code,t.spend .popCipher,fs) := rfl
@[simp] theorem handle_cryptoBlkcipherSetkey (key : List Byte) :
    Kernel.handle P (.cryptoBlkcipherSetkey key) (t,fs) =
      (some (t.faults.setkeys.headD none).code,t.spend .popSetkey,fs) := rfl
@[simp] theorem handle_oops : Kernel.handle P .oops (t,fs) = (none,t,fs) := rfl

variable {t fs}

theorem handle_kmalloc (size : ℕ) (h : t.faults.allocs.headD false = false) :
    Kernel.handle P (.kmalloc size) (t,fs) =
      (some (some ⟨t.heap.next,leftover (t.garbage.headD []) size⟩),
        (t.dig.spend .popAlloc).given (leftover (t.garbage.headD []) size),fs) := by
  have hd : t.dig.faults.allocs.headD false = false := h
  simp only [Kernel.handle, Task.kmalloc, hd, Bool.false_eq_true, ↓reduceIte, Task.dig_heap]

theorem handle_kmalloc_fails (size : ℕ) (h : t.faults.allocs.headD false = true) :
    Kernel.handle P (.kmalloc size) (t,fs) = (some none,t.dig.spend .popAlloc,fs) := by
  have hd : t.dig.faults.allocs.headD false = true := h
  simp only [Kernel.handle, Task.kmalloc, hd, ↓reduceIte]

/-- What every caller of `kmalloc` may rely on. -/
structure Allocated (t : Task) (r : Option Buf) (t' : Task) : Prop where
  fails : r = none ↔ t.faults.allocs.headD false = true
  faults : t'.faults = t.faults.popAlloc
  cwd : t'.cwd = t.cwd
  now : t'.now = t.now
  fresh : ∀ b, r = some b → t.heap.live b.addr = none ∧ t'.heap.live b.addr = some b.bytes
  keeps : ∀ a, (∀ b, r = some b → b.addr ≠ a) → t'.heap.live a = t.heap.live a
  doubleFree : t'.heap.doubleFree = t.heap.doubleFree
  addrLimit : t'.addrLimit = t.addrLimit

theorem Task.kmalloc_spec (t : Task) (bytes : List Byte) :
    Allocated t (t.kmalloc bytes).1 (t.kmalloc bytes).2 := by
  unfold Task.kmalloc
  by_cases h : t.faults.allocs.headD false = true
  · rw [if_pos h]
    exact ⟨iff_of_true rfl h,rfl,rfl,rfl,fun b hb => (by cases hb),fun a _ => rfl,rfl,rfl⟩
  · rw [if_neg h]
    refine ⟨iff_of_false (Option.some_ne_none _) h,rfl,rfl,rfl,?_,?_,rfl,rfl⟩
    · rintro b ⟨rfl⟩
      exact ⟨t.heap.fresh _ le_rfl,Function.update_self _ _ _⟩
    · intro a ha
      exact Function.update_of_ne (ha _ rfl).symm _ _

theorem kmalloc_spec (P : Platform) (size : ℕ) (t : Task) (fs : Fs) :
    ∃ (r : Option Buf) (t' : Task), Kernel.handle P (.kmalloc size) (t,fs) = (some r,t',fs) ∧ Allocated t r t' := by
  obtain ⟨hf,hfa,hc,hn,hfr,hk,hd,hl⟩ := t.dig.kmalloc_spec (leftover (t.garbage.headD []) size)
  exact ⟨_,_,rfl,hf,hfa,hc,hn,hfr,hk,hd,hl⟩

/-- The slot that an open of this name reaches; a file is created only in a directory that is there. -/
def Fs.reach (P : Platform) (fs : Fs) (path : Path) (create : Bool) : Option (ℕ × Slot) :=
  (fs path).openInode (create && P.directory (parent path))

theorem Fs.reach_found {path : Path} {past : List (List Byte)} {c : List Byte} (h : fs path = ⟨past,some c⟩)
    (create : Bool) : fs.reach P path create = some (past.length,⟨past,some c⟩) := by
  rw [Fs.reach, h, Slot.openInode_found]

theorem Fs.reach_missing {path : Path} (h : fs.entry path = none) : fs.reach P path false = none := by
  rw [Fs.reach, Bool.false_and]
  exact Slot.openInode_missing h

/-- A creating open leaves what the name held, or an empty file. -/
theorem Fs.reach_create {path : Path} (h : fs.reach P path true ≠ none) :
    fs.reach P path true = some ((fs path).past.length,⟨(fs path).past,some ((fs.entry path).getD [])⟩) := by
  unfold Fs.reach at *
  cases hd : P.directory (parent path) with
  | true => exact Slot.openInode_create (fs path)
  | false =>
    rw [hd] at h
    have hthere : (fs path).now ≠ none := fun hnone => h (Slot.openInode_missing hnone)
    obtain ⟨past,c,hslot⟩ := Slot.exists_of_now_ne_none hthere
    rw [Fs.entry, hslot]
    rfl

theorem handle_filpOpen {fname : Path} {create : Bool} {i : ℕ} {s : Slot}
    (h : t.faults.opens.headD none = none) (hs : fs.reach P (resolve t.cwd fname) create = some (i,s)) :
    Kernel.handle P (.filpOpen fname create) (t,fs) =
      (some (.ok ⟨resolve t.cwd fname,i⟩),(t.spend .popOpen).opening ⟨resolve t.cwd fname,i⟩,
        Function.update fs (resolve t.cwd fname) s) := by
  unfold Fs.reach at hs
  simp only [Kernel.handle, h, hs]

theorem handle_filpOpen_fails {fname : Path} {create : Bool}
    (h : t.faults.opens.headD none ≠ none ∨ fs.reach P (resolve t.cwd fname) create = none) :
    ∃ e, Kernel.handle P (.filpOpen fname create) (t,fs) = (some (.error e),t.spend .popOpen,fs) := by
  cases ho : t.faults.opens.headD none with
  | some e => exact ⟨Int.negSucc e,by simp only [Kernel.handle, ho]⟩
  | none =>
    rcases h with h | h
    · exact absurd ho h
    · unfold Fs.reach at h
      exact ⟨enoent,by simp only [Kernel.handle, ho, h]⟩

theorem handle_vfsRead (f : File) {pos : ℤ} (len : ℕ) (h : 0 ≤ pos) :
    Kernel.handle P (.vfsRead f pos len) (t,fs) =
      let avail := ((fs.content f).drop pos.toNat).take len
      let n := (t.faults.reads.headD .full).count avail.length
      (some (n,avail.take n.toNat),t.spend .popRead,fs) := by
  have hneg : ¬ (pos < 0 ∨ (len : ℤ) < 0) := by omega
  simp only [Kernel.handle, if_neg hneg, Int.toNat_natCast]

theorem handle_vfsWrite (f : File) {pos : ℤ} (buf : List Byte) (len : ℕ) (h : 0 ≤ pos) :
    Kernel.handle P (.vfsWrite f pos buf len) (t,fs) =
      let n := (t.faults.writes.headD .full).count (buf.take len).length
      (some n,t.spend .popWrite,Function.update fs f.path
        ((fs f.path).write f.inode pos.toNat ((buf.take len).take n.toNat))) := by
  have hneg : ¬ (pos < 0 ∨ (len : ℤ) < 0) := by omega
  simp only [Kernel.handle, if_neg hneg, Int.toNat_natCast]

theorem handle_vfsWrite_invalid (f : File) {pos : ℤ} (buf : List Byte) {len : ℤ} (h : pos < 0 ∨ len < 0) :
    Kernel.handle P (.vfsWrite f pos buf len) (t,fs) = (some einval,t.spend .popWrite,fs) := by
  simp only [Kernel.handle, if_pos h]

/-- An open file that is still linked is removed, unless the call fails. -/
theorem handle_vfsUnlink {f : File} {past : List (List Byte)} {c : List Byte} (hs : fs f.path = ⟨past,some c⟩)
    (hi : f.inode = past.length) :
    Kernel.handle P (.vfsUnlink f) (t,fs) = (some (t.faults.unlinks.headD none).code,t.spend .popUnlink,
      if t.faults.unlinks.headD none = none then Function.update fs f.path ⟨past ++ [c],none⟩ else fs) := by
  simp only [Kernel.handle]
  cases t.faults.unlinks.headD none with
  | some e => rfl
  | none =>
    rw [hs, hi, Slot.unlink_linked]
    rfl

/-- The pointer leads to a live string. -/
def Task.keyIs (t : Task) (key : Ptr) (bytes : List Byte) : Prop :=
  (key.bind t.heap.live).map cString = some bytes

variable (fs) in
theorem handle_readString {key : Ptr} {bytes : List Byte} (h : t.keyIs key bytes) :
    Kernel.handle P (.readString key) (t,fs) = (some bytes,t,fs) := by
  exact congrArg (·,t,fs) h

/-- Within its buffer an input is converted. -/
theorem convert_of_le (f : List Byte → List Byte) {src : List Byte} {n : ℕ} (h : n ≤ src.length) :
    P.convert f src n = some (0,f (src.take n)) := by
  have hnull : ¬ (src = [] ∧ n ≠ 0) := by
    rintro ⟨rfl,hn⟩
    exact hn (Nat.le_zero.mp h)
  rw [Platform.convert, if_neg hnull, Platform.found, if_pos h]
  rfl

end Equations

/-! ## Tasks that go on -/

/-- `t'` has the surroundings of `t`, `k` allocations later. -/
structure Elapsed (t : Task) (k : ℕ) (t' : Task) : Prop where
  garbage : t'.garbage = t.garbage.drop k
  stack : t'.stack = t.stack
  cwd : t'.cwd = t.cwd
  now : t'.now = t.now

theorem Elapsed.refl (t : Task) : Elapsed t 0 t := ⟨rfl,rfl,rfl,rfl⟩

theorem Elapsed.trans {t t' t'' : Task} {k l : ℕ} (h : Elapsed t k t') (h' : Elapsed t' l t'') : Elapsed t (k+l) t'' where
  garbage := by rw [h'.garbage, h.garbage, List.drop_drop]
  stack := h'.stack.trans h.stack
  cwd := h'.cwd.trans h.cwd
  now := h'.now.trans h.now

/-- What the `i`-th allocation from now on will hold. -/
def Task.found (t : Task) (i size : ℕ) : List Byte := leftover (t.garbage.getD i []) size

theorem Elapsed.found {t t' : Task} {k : ℕ} (h : Elapsed t k t') (i size : ℕ) :
    t'.found i size = t.found (k+i) size := by
  simp only [Task.found, h.garbage, List.getD_eq_getElem?_getD, List.getElem?_drop]

theorem length_found (t : Task) (i size : ℕ) : (t.found i size).length = size := by
  rw [Task.found, leftover, List.length_append, List.length_take, List.length_replicate]
  omega

/-- Besides, what was live still is. -/
structure Becomes (t : Task) (k : ℕ) (t' : Task) : Prop extends Elapsed t k t' where
  live : ∀ a bytes, t.heap.live a = some bytes → t'.heap.live a = some bytes

theorem Becomes.refl (t : Task) : Becomes t 0 t := ⟨Elapsed.refl t,fun _ _ h => h⟩

/-- Only fault lists, address limit or open files have changed. -/
theorem Becomes.of_eq {t t' : Task} (hg : t'.garbage = t.garbage) (hs : t'.stack = t.stack) (hc : t'.cwd = t.cwd)
    (hn : t'.now = t.now) (hh : t'.heap = t.heap) : Becomes t 0 t' := ⟨⟨hg,hs,hc,hn⟩,fun _ _ h => hh ▸ h⟩

theorem Becomes.trans {t t' t'' : Task} {k l : ℕ} (h : Becomes t k t') (h' : Becomes t' l t'') :
    Becomes t (k+l) t'' where
  toElapsed := h.toElapsed.trans h'.toElapsed
  live a bytes ha := h'.live a bytes (h.live a bytes ha)

theorem Becomes.keyIs {t t' : Task} {k : ℕ} {key : Ptr} {bytes : List Byte} (h : Becomes t k t')
    (hkey : t.keyIs key bytes) : t'.keyIs key bytes := by
  obtain ⟨b,hb,hs⟩ := Option.map_eq_some_iff.mp hkey
  obtain ⟨a,rfl,ha⟩ := Option.bind_eq_some_iff.mp hb
  exact Option.map_eq_some_iff.mpr ⟨b,Option.bind_eq_some_iff.mpr ⟨a,rfl,h.live a b ha⟩,hs⟩

section Allocation
variable (P : Platform) {t : Task} (fs : Fs)

/-- A page asked for as the `i`-th allocation, at the address it would get. -/
def Task.page (t : Task) (i a : ℕ) : Option Buf :=
  if t.faults.allocs.getD i false then none else some ⟨a,t.found i 4096⟩

theorem Task.page_some {i : ℕ} (h : t.faults.allocs.getD i false = false) (a : ℕ) :
    t.page i a = some ⟨a,t.found i 4096⟩ := by
  rw [Task.page, h]
  rfl

theorem Task.page_none {i : ℕ} (h : t.faults.allocs.getD i false = true) (a : ℕ) : t.page i a = none := by
  rw [Task.page, h]
  rfl

@[simp] theorem Task.isNone_page (i a : ℕ) : (t.page i a).isNone = t.faults.allocs.getD i false := by
  unfold Task.page
  split
  · next h => exact h.symm
  · next h => exact (Bool.eq_false_iff.mpr h).symm

theorem Task.length_page {i a : ℕ} {b : Buf} (h : t.page i a = some b) : b.bytes.length = 4096 := by
  unfold Task.page at h
  split at h
  · cases h
  · cases h
    exact length_found t i 4096

variable (t) in
theorem kmalloc_becomes (size : ℕ) : Becomes t 1 (Kernel.handle P (.kmalloc size) (t,fs)).2.1 := by
  cases h : t.faults.allocs.headD false with
  | true =>
    rw [handle_kmalloc_fails P size h]
    exact ⟨⟨List.drop_one.symm,rfl,rfl,rfl⟩,fun _ _ ha => ha⟩
  | false =>
    rw [handle_kmalloc P size h]
    refine ⟨⟨List.drop_one.symm,rfl,rfl,rfl⟩,fun a bytes ha => ?_⟩
    exact (Function.update_of_ne (Heap.lt_next ha).ne _ _).trans ha

theorem kmalloc_ok (h : t.faults.allocs.headD false = false) (size : ℕ) :
    ∃ a t', Kernel.handle P (.kmalloc size) (t,fs) = (some (some ⟨a,t.found 0 size⟩),t',fs) ∧
      t'.faults = t.faults.popAlloc ∧ t.heap.live a = none ∧ Becomes t 1 t' := by
  have hg : t.garbage.headD [] = t.garbage.getD 0 [] := by
    rw [List.headD_eq_head?_getD, List.head?_eq_getElem?, List.getD_eq_getElem?_getD]
  refine ⟨t.heap.next,(t.dig.spend .popAlloc).given (t.found 0 size),?_,rfl,t.heap.fresh _ le_rfl,
    ⟨List.drop_one.symm,rfl,rfl,rfl⟩,?_⟩
  · rw [handle_kmalloc P size h, hg]
    rfl
  · intro a bytes ha
    have hne : a ≠ t.heap.next := (Heap.lt_next ha).ne
    exact (Function.update_of_ne hne _ _).trans ha

/-- The two pages of a chunk, either of which may be missing. -/
structure Buffers (P : Platform) (t : Task) (fs : Fs) (a₃ a₄ : ℕ) (t₁ t₂ : Task) : Prop where
  first : Kernel.handle P (.kmalloc 4096) (t,fs) = (some (t.page 0 a₃),t₁,fs)
  second : Kernel.handle P (.kmalloc 4096) (t₁,fs) = (some (t.page 1 a₄),t₂,fs)
  faults : t₂.faults = t.faults.popAlloc.popAlloc
  becomes : Becomes t 2 t₂
  fresh₃ : t.heap.live a₃ = none
  fresh₄ : t.heap.live a₄ = none

variable (t) in
/-- Whether an allocation succeeds or not, the task goes on. -/
theorem kmalloc_page : ∃ a t', Kernel.handle P (.kmalloc 4096) (t,fs) = (some (t.page 0 a),t',fs) ∧
    t'.faults = t.faults.popAlloc ∧ t.heap.live a = none ∧ Becomes t 1 t' := by
  have hzero : t.faults.allocs.getD 0 false = t.faults.allocs.headD false := by
    rw [List.headD_eq_head?_getD, List.head?_eq_getElem?, List.getD_eq_getElem?_getD]
  cases h : t.faults.allocs.headD false with
  | false =>
    obtain ⟨a,t',hcall,hfaults,hfresh,hbec⟩ := kmalloc_ok P fs h 4096
    refine ⟨a,t',?_,hfaults,hfresh,hbec⟩
    rw [hcall, Task.page_some (hzero.trans h)]
  | true =>
    refine ⟨t.heap.next,t.dig.spend .popAlloc,?_,rfl,t.heap.fresh _ le_rfl,?_⟩
    · rw [handle_kmalloc_fails P 4096 h, Task.page_none (hzero.trans h)]
    · exact ⟨⟨List.drop_one.symm,rfl,rfl,rfl⟩,fun _ _ ha => ha⟩

variable (t) in
theorem buffers_exist : ∃ a₃ a₄ t₁ t₂, Buffers P t fs a₃ a₄ t₁ t₂ := by
  obtain ⟨a₃,t₁,first,f₁,fresh₃,b₁⟩ := kmalloc_page P t fs
  obtain ⟨a₄,t₂,second,f₂,fresh₄,b₂⟩ := kmalloc_page P t₁ fs
  refine ⟨a₃,a₄,t₁,t₂,first,?_,f₂.trans (congrArg _ f₁),b₁.trans b₂,fresh₃,?_⟩
  · have hpage : t₁.page 0 a₄ = t.page 1 a₄ := by
      simp [Task.page, f₁, Faults.popAlloc, b₁.found, List.getD_eq_getElem?_getD]
    rw [second, hpage]
  · by_contra hne
    obtain ⟨bytes,hb⟩ := Option.ne_none_iff_exists'.mp hne
    rw [b₁.live a₄ bytes hb] at fresh₄
    cases fresh₄

/-- A page is released at the address that it got. -/
theorem free_page_live (h : Heap) {i a b : ℕ} (hab : b ≠ a) : (h.free ((t.page i a).map Buf.addr)).live b = h.live b := by
  unfold Task.page
  split
  · rfl
  · exact h.free_live_of_ne hab

/-- After both pages are released nothing but time has passed. -/
theorem Buffers.release {P : Platform} {fs : Fs} {a₃ a₄ : ℕ} {t₁ t₂ t' : Task} (h : Buffers P t fs a₃ a₄ t₁ t₂)
    (hg : t'.garbage = t₂.garbage) (hs : t'.stack = t₂.stack) (hc : t'.cwd = t₂.cwd) (hn : t'.now = t₂.now)
    (hh : t'.heap = (t₂.heap.free ((t.page 0 a₃).map Buf.addr)).free ((t.page 1 a₄).map Buf.addr)) : Becomes t 2 t' := by
  refine ⟨⟨hg.trans h.becomes.garbage,hs.trans h.becomes.stack,hc.trans h.becomes.cwd,hn.trans h.becomes.now⟩,?_⟩
  intro a bytes ha
  have h₃ : a ≠ a₃ := by
    rintro rfl
    rw [h.fresh₃] at ha
    cases ha
  have h₄ : a ≠ a₄ := by
    rintro rfl
    rw [h.fresh₄] at ha
    cases ha
  rw [hh, free_page_live _ h₄, free_page_live _ h₃]
  exact h.becomes.live a bytes ha

end Allocation

/-! ## Fault-free tasks -/
section FaultFree
variable {t : Task} {fs : Fs}

/-- `t'` is a fault-free task after `k` allocations of `t`, with the same surroundings. -/
structure Quiet (t : Task) (k : ℕ) (t' : Task) : Prop extends Elapsed t k t' where
  faults : t'.faults = {}

theorem Quiet.refl (h : t.faults = {}) : Quiet t 0 t := ⟨Elapsed.refl t,h⟩

theorem Quiet.trans {k l : ℕ} {t' t'' : Task} (h : Quiet t k t') (h' : Quiet t' l t'') : Quiet t (k+l) t'' :=
  ⟨h.toElapsed.trans h'.toElapsed,h'.faults⟩

/-- A fault-free call uses up no fault. -/
theorem Quiet.spend (h : t.faults = {}) (pop : Faults → Faults) (hp : pop {} = {}) : Quiet t 0 (t.spend pop) where
  faults := by rw [Task.spend_faults, h, hp]
  garbage := rfl
  stack := rfl
  cwd := rfl
  now := rfl

theorem Quiet.limit (h : t.faults = {}) (seg : Seg) : Quiet t 0 (t.limit seg) := ⟨⟨rfl,rfl,rfl,rfl⟩,h⟩

theorem Quiet.freed (h : t.faults = {}) (p : Ptr) : Quiet t 0 (t.freed p) := ⟨⟨rfl,rfl,rfl,rfl⟩,h⟩

theorem kmalloc_quiet (P : Platform) (h : t.faults = {}) (size : ℕ) (fs : Fs) :
    ∃ a t', Kernel.handle P (.kmalloc size) (t,fs) = (some (some ⟨a,t.found 0 size⟩),t',fs) ∧ Quiet t 1 t' := by
  obtain ⟨a,t',hcall,hfaults,-,hbec⟩ := kmalloc_ok P (t := t) fs (by rw [h]; rfl) size
  refine ⟨a,t',hcall,hbec.toElapsed,?_⟩
  rw [hfaults, h]
  rfl

end FaultFree

end XClone
