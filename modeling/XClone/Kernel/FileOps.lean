import XClone.Kernel.Calls

/-! # File helpers and the names of trash entries

The helpers of `sys_xclone2.c` around the file layer, and the one name scheme its
four operations share: a time stamp to the minute, the mangled path, a suffix.
-/
namespace XClone
open Effects Prog

def PAGE_SIZE : ℕ := 4096
def PATH_MAX : ℕ := 4096
def EPERM : ℤ := 1
def ENOMEM : ℤ := 12

/-- The caller dies: a `NULL` or error pointer is dereferenced. -/
def die {α : Type} : KProg α := kcall .oops >>= fun e => nomatch e

/-- `file_open` raises the address limit and does not lower it again. -/
def fileOpen (path : Path) (create : Bool) : KProg (Except ℤ File) := do
  let _oldfs ← kcall .getFs
  kcall (.setFs .kernelDs)
  kcall (.filpOpen path create)

def fileClose (file : File) : KProg Unit := kcall (.filpClose file)

def fileRead (file : File) (offset len : ℤ) : KProg (ℤ × List Byte) := do
  let oldfs ← kcall .getFs
  kcall (.setFs .kernelDs)
  let bytes ← kcall (.vfsRead file (CInt.toLong offset) len)
  kcall (.setFs oldfs)
  return bytes

def fileWrite (file : File) (offset : ℤ) (buf : List Byte) (len : ℤ) : KProg ℤ := do
  let oldfs ← kcall .getFs
  kcall (.setFs .kernelDs)
  let bytes ← kcall (.vfsWrite file (CInt.toLong offset) buf len)
  kcall (.setFs oldfs)
  return bytes

/-- `vfs_read` into a buffer: the count, and what the buffer holds then. -/
def vfsReadInto (file : File) (buff : Option Buf) (pos len : ℤ) : KProg (ℤ × List Byte) :=
  match buff with
  | some b => do
    let (n,data) ← kcall (.vfsRead file pos len)
    return (n,Bytes.overlay 0 b.bytes 0 data)
  | none => do
    let n ← kcall (.vfsReadNull file pos len)
    return (n,[])

/-- `vfs_write` of what a buffer holds, `none` for `NULL`. -/
def vfsWriteFrom (file : File) (pos : ℤ) (contents : Option (List Byte)) (len : ℤ) : KProg ℤ :=
  match contents with
  | some bytes => kcall (.vfsWrite file pos bytes len)
  | none => kcall (.vfsWriteNull file pos len)

/-- `file_read` as it is written out around the calls on buffers. -/
def fileReadInto (file : File) (buff : Option Buf) (offset len : ℤ) : KProg (ℤ × List Byte) := do
  let oldfs ← kcall .getFs
  kcall (.setFs .kernelDs)
  let bytes ← vfsReadInto file buff (CInt.toLong offset) len
  kcall (.setFs oldfs)
  return bytes

def fileWriteFrom (file : File) (offset : ℤ) (contents : Option (List Byte)) (len : ℤ) : KProg ℤ := do
  let oldfs ← kcall .getFs
  kcall (.setFs .kernelDs)
  let bytes ← vfsWriteFrom file (CInt.toLong offset) contents len
  kcall (.setFs oldfs)
  return bytes

/-- The output of a service goes into a buffer; through `NULL` it dies with its first byte. -/
def storeOutput (buff : Option Buf) (out : List Byte) : KProg (Option (List Byte)) :=
  match buff with
  | some b => return some (Bytes.overlay 0 b.bytes 0 out)
  | none => if out = [] then return none else die

/-- `d_path` on a file and a buffer of some size, or `NULL`; the path of the file is taken to fit. -/
def dPath (P : Platform) (f : File) (size : Option ℕ) : KProg Path :=
  match size with
  | some _ => return f.path
  | none =>
    match P.dPathNull f.path with
    | some path => return path
    | none => die

/-- The last component of a path, the dentry's own name. -/
def dName (f : File) : Path := (f.path.reverse.takeWhile (· ≠ '/')).reverse

/-! ## Their runs -/

section Open
variable (P : Platform) {t : Task} {fs : Fs} {path : Path} {create : Bool}

theorem run_fileOpen {i : ℕ} {s : Slot} (h : t.faults.opens.headD none = none)
    (hs : fs.reach P (resolve t.cwd path) create = some (i,s)) :
    (fileOpen path create).run (Kernel.handle P) (t,fs) =
      (some (.ok ⟨resolve t.cwd path,i⟩),
        ((t.limit .kernelDs).spend .popOpen).opening ⟨resolve t.cwd path,i⟩,
        Function.update fs (resolve t.cwd path) s) := by
  simp only [fileOpen, run_bind, run_perform, handle_getFs, handle_setFs]
  exact handle_filpOpen P (t := t.limit .kernelDs) h hs

variable (fs path create) in
theorem run_fileOpen_fails (h : t.faults.opens.headD none ≠ none ∨
      fs.reach P (resolve t.cwd path) create = none) :
    ∃ e, (fileOpen path create).run (Kernel.handle P) (t,fs) =
      (some (.error e),(t.limit .kernelDs).spend .popOpen,fs) := by
  simp only [fileOpen, run_bind, run_perform, handle_getFs, handle_setFs]
  exact handle_filpOpen_fails P (t := t.limit .kernelDs) h

end Open

theorem headD_of_drop {α : Type*} {l xs : List α} {k : ℕ} (h : l = xs.drop k) (d : α) :
    l.headD d = xs.getD k d := by
  rw [h, List.headD_eq_head?_getD, List.head?_drop, List.getD_eq_getElem?_getD]

@[simp] theorem run_fileClose (P : Platform) (f : File) (t : Task) (fs : Fs) :
    (fileClose f).run (Kernel.handle P) (t,fs) = (some (),t.closing f,fs) := rfl

theorem run_fileRead (P : Platform) (f : File) {offset : ℤ} (len : ℕ) (t : Task) (fs : Fs)
    (h : 0 ≤ offset) (h' : offset < 9223372036854775808) :
    (fileRead f offset len).run (Kernel.handle P) (t,fs) =
      let avail := ((fs.content f).drop offset.toNat).take len
      let n := (t.faults.reads.headD .full).count avail.length
      (some (n,avail.take n.toNat),t.spend .popRead,fs) := by
  have ho := CInt.toLong_eq (by omega : -9223372036854775808 ≤ offset) h'
  have hp : 0 ≤ CInt.toLong offset := ho.symm ▸ h
  simp only [fileRead, run_bind, run_perform, handle_getFs, handle_setFs, handle_vfsRead P f len hp,
    run_pure, ho]
  rfl

theorem run_fileWrite (P : Platform) (f : File) {offset : ℤ} (buf : List Byte) (len : ℕ) (t : Task)
    (fs : Fs) (h : 0 ≤ offset) (h' : offset < 9223372036854775808) :
    (fileWrite f offset buf len).run (Kernel.handle P) (t,fs) =
      let n := (t.faults.writes.headD .full).count (buf.take len).length
      (some n,t.spend .popWrite,Function.update fs f.path
        ((fs f.path).write f.inode offset.toNat ((buf.take len).take n.toNat))) := by
  have ho := CInt.toLong_eq (by omega : -9223372036854775808 ≤ offset) h'
  have hp : 0 ≤ CInt.toLong offset := ho.symm ▸ h
  simp only [fileWrite, run_bind, run_perform, handle_getFs, handle_setFs, handle_vfsWrite P f buf len hp,
    run_pure, ho]
  rfl

theorem run_fileWrite_negative (P : Platform) (f : File) {offset : ℤ} (buf : List Byte) (len : ℤ)
    (t : Task) (fs : Fs) (h : offset < 0) (h' : -9223372036854775808 ≤ offset) :
    (fileWrite f offset buf len).run (Kernel.handle P) (t,fs) = (some einval,t.spend .popWrite,fs) := by
  have ho := CInt.toLong_eq h' (by omega)
  have hp : CInt.toLong offset < 0 ∨ len < 0 := .inl (ho.symm ▸ h)
  simp only [fileWrite, run_bind, run_perform, handle_getFs, handle_setFs,
    handle_vfsWrite_invalid P f buf hp, run_pure]
  rfl

/-! ## From one file into another -/

/-- Two open files: `c` is read from one, the other is linked and holds `out`. -/
structure Transfer (fRead fWrite : File) (past : List (List Byte)) (c out : List Byte) (fs : Fs) : Prop where
  source : fs.content fRead = c
  target : fs fWrite.path = ⟨past,some out⟩
  inode : fWrite.inode = past.length
  apart : fRead.path ≠ fWrite.path

theorem Transfer.write {fRead fWrite : File} {past : List (List Byte)} {c out : List Byte} {fs : Fs}
    (h : Transfer fRead fWrite past c out fs) (pos : ℕ) (bs : List Byte) :
    Transfer fRead fWrite past c (Bytes.overlay 0 out pos bs)
      (Function.update fs fWrite.path ((fs fWrite.path).write fWrite.inode pos bs)) where
  source := by
    rw [Fs.content, Function.update_of_ne h.apart]
    exact h.source
  target := by rw [Function.update_self, h.target, h.inode, Slot.write_linked]
  inode := h.inode
  apart := h.apart

theorem Transfer.store {fRead fWrite : File} {past : List (List Byte)} {c out : List Byte} {fs : Fs}
    (h : Transfer fRead fWrite past c out fs) (out' : List Byte) :
    Transfer fRead fWrite past c out' (Function.update fs fWrite.path ⟨past,some out'⟩) where
  source := (Fs.content_update_of_ne h.apart _).trans h.source
  target := Function.update_self _ _ _
  inode := h.inode
  apart := h.apart

theorem Transfer.entry {fRead fWrite : File} {past : List (List Byte)} {c out : List Byte} {fs : Fs}
    (h : Transfer fRead fWrite past c out fs) : fs.entry fWrite.path = some out := congrArg Slot.now h.target

/-- The clean-up behind the labels `out3` and `out1`. -/
def freeBuffers : List Buf → KProg Unit
  | [] => return ()
  | b :: bs => do
    kcall (.kfree (some b.addr))
    freeBuffers bs

/-! ## Names in the trashbin -/

/-- `%d` and `%ld`. -/
def decimal (n : ℤ) : List Char := (toString n).toList

theorem decimal_natCast (n : ℕ) : decimal (n : ℤ) = Nat.toDigits 10 n := by
  change (Nat.repr n).toList = _
  exact Nat.toList_repr

/-- `%02d`: a single digit gets a leading zero, a sign already fills the field. -/
def decimal02 (n : ℤ) : List Char := if 0 ≤ n ∧ n < 10 then '0' :: decimal n else decimal n

/-- `strreplace(path, '/', '[')`. -/
def strreplace (path : Path) : Path := path.map (fun c => if c = '/' then '[' else c)

/-- Year, month, day, hour and minute as the four operations print them. -/
def timeStamp (P : Platform) (getTime : ℕ) : List Char :=
  let tmp1 := CInt.toInt ((getTime / 60 : ℕ) : ℤ)
  let min := tmp1.tmod 60
  let tmp2 := tmp1.tdiv 60
  let hr := tmp2.tmod 24 - 4
  let tv2 := P.timeToTm getTime
  decimal (tv2.tmYear + 1900) ++ '-' :: decimal02 tv2.tmMon ++ '-' :: decimal02 tv2.tmMday
    ++ '-' :: decimal02 hr ++ ':' :: decimal02 min ++ ['_']

/-- The string left in a fresh buffer behind the four bytes of `"/usr"`. -/
def staleTail (buffer : List Byte) : List Char :=
  (cString (buffer.drop 4)).map (fun b => Char.ofNat b.toNat)

def usr : Path := ['/','u','s','r']
def trashbin : Path := ['/','t','r','a','s','h','b','i','n']

/-- The name of a trash entry. `stale` is what the buffer held before the first `strcat`. -/
def trashName (P : Platform) (stale : List Char) (getTime : ℕ) (path suffix : Path) : Path :=
  usr ++ stale ++ trashbin ++ '/' :: timeStamp P getTime ++ strreplace path ++ suffix

theorem slash_notMem_strreplace (path : Path) : '/' ∉ strreplace path := by
  intro h
  obtain ⟨c,_,hc⟩ := List.mem_map.mp h
  split at hc
  · exact absurd hc (by decide)
  · contradiction

@[simp] theorem length_strreplace (path : Path) : (strreplace path).length = path.length :=
  List.length_map _

/-- The file that a name is opened as is not the one whose path it keeps. -/
theorem resolve_trashName_ne {suffix : Path} (hsuffix : '/' ∉ suffix) (P : Platform) (cwd : Path) (stale : List Char)
    (getTime : ℕ) (path : Path) : resolve cwd (trashName P stale getTime path suffix) ≠ path := by
  have hslash : '/' ∉ '_' :: (strreplace path ++ suffix) := by
    simp [slash_notMem_strreplace, hsuffix]
  obtain ⟨stamp,hstamp⟩ : ∃ stamp, timeStamp P getTime = stamp ++ ['_'] := ⟨_,rfl⟩
  obtain ⟨front,hfront⟩ := resolve_suffix hslash List.mem_cons_self (by decide) cwd
    (usr ++ stale ++ trashbin ++ '/' :: stamp)
  have hname : trashName P stale getTime path suffix =
      (usr ++ stale ++ trashbin ++ '/' :: stamp) ++ '_' :: (strreplace path ++ suffix) := by
    simp [trashName, hstamp]
  intro h
  rw [hname, hfront] at h
  have hlen := congrArg List.length h
  simp only [List.length_append, List.length_cons, length_strreplace] at hlen
  omega

end XClone
