import XClone.Sync.Encryption

/-! # Compression: frames, `compress_file` and `decompress_file`

A chunk is stored as a four byte decimal header and a payload. The header is printed
into a buffer of four bytes that lives on the stack of the whole call, and the payload
written is as long as a pointer, whatever the compressor produced.
-/
namespace XClone
open Effects Prog

/-- The characters of a string as bytes. -/
def asciiBytes (str : List Char) : List Byte := str.map (fun c => UInt8.ofNat c.toNat)

/-- `snprintf(buf, 4, "%d", n)`: three characters and the terminator, over what `buf` held. -/
def snprintf4 (buf : List Byte) (n : ℤ) : List Byte :=
  Bytes.overlay 0 buf 0 (asciiBytes ((decimal n).take 3) ++ [0])

/-- `sizeof(buff4)`, the size of a pointer. -/
def sizeofPointer : ℕ := 8

/-- `compress_buffer`: the compressed length and what the output buffer holds then, or `-1`. The
transform is not tested; an `outLen` that was never set is `none`. -/
def compressBuffer (inBuf : List Byte) (inLen : ℤ) (outBuf : Option Buf) (outLen : Option ℤ) :
    KProg (ℤ × Option (List Byte)) := do
  let tfm ← kcall .cryptoAllocComp
  if tfm < 0 then die
  else
    let (err,out) ← kcall (.cryptoCompCompress inBuf inLen outLen)
    if err < 0 then return (-1,none)
    else
      let stored ← storeOutput outBuf out
      return (out.length,stored)

def decompressBuffer (inBuf : List Byte) (inLen : ℤ) (outBuf : Option Buf) : KProg (ℤ × Option (List Byte)) := do
  let tfm ← kcall .cryptoAllocComp
  if tfm < 0 then die
  else
    let (err,out) ← kcall (.cryptoCompDecompress inBuf inLen)
    if err < 0 then return (-1,none)
    else
      let stored ← storeOutput outBuf out
      return (out.length,stored)

/-- `vfs_write` moves the file position by what it wrote, and not at all on an error. -/
def advance (pos written : ℤ) : ℤ := if written > 0 then pos + written else pos

/-- One chunk of `compress_file`: the bytes read, the bytes of the second write, the result of the
compressor and the header buffer for the next round. Neither page is tested. -/
def compressRound (fRead fWrite : File) (buff3 buff4 : Option Buf) (outLen : Option ℤ) (tei : List Byte)
    (tempSize currReadSize currWriteSize : ℤ) : KProg (Except ℤ (ℤ × ℤ × ℤ × List Byte)) := do
  let (bytes1,src) ← fileReadInto fRead buff3 currReadSize tempSize
  let (err,out) ← compressBuffer src bytes1 buff4 outLen
  if err < 0 then
    freePages buff3 buff4
    return .error err
  else
    let tei := snprintf4 tei err
    let oldfs2 ← kcall .getFs
    kcall (.setFs .kernelDs)
    let header ← kcall (.vfsWrite fWrite currWriteSize tei 4)
    let bytes2 ← vfsWriteFrom fWrite (advance currWriteSize header) out sizeofPointer
    kcall (.setFs oldfs2)
    freePages buff3 buff4
    return .ok (bytes1,CInt.toInt bytes2,err,tei)

/-- The loop of `compress_file`, with the value of `err` on entry of a round. -/
def compressLoop (fRead fWrite : File) (outLen : Option ℤ) : ℕ → ℤ → List Byte → ℤ → ℤ → ℤ → KProg ℤ
  | 0, err, _, _, _, _ => return err
  | rounds+1, err, tei, fsize, currReadSize, currWriteSize => do
    if fsize > 0 then
      let buff3 ← kcall (.kmalloc PAGE_SIZE)
      let buff4 ← kcall (.kmalloc PAGE_SIZE)
      let (tempSize,fsize) := nextChunk fsize
      match ← compressRound fRead fWrite buff3 buff4 outLen tei tempSize currReadSize currWriteSize with
      | .error err => return err
      | .ok (bytes1,bytes2,err,tei) =>
        compressLoop fRead fWrite outLen rounds err tei fsize (CInt.toInt (currReadSize + bytes1))
          (CInt.toInt (currWriteSize + bytes2))
    else return err

/-- What both copies of `compress_file` do once they have their `out_len`. -/
def compressFileInto (outLen : Option ℤ) (fRead fWrite : File) : KProg ℤ := do
  let tei ← kcall (.stackBytes 4)
  let fsize := CInt.toInt (← kcall (.iSizeRead fRead))
  compressLoop fRead fWrite outLen fsize.toNat 0 tei fsize 0 0

/-- `compress_file` as in `sys_xclone2_myorg.c`, where nothing sets `out_len`. -/
def compressFile (fRead fWrite : File) : KProg ℤ := compressFileInto none fRead fWrite

/-- A pointer as an `int`: of all addresses only `NULL` is taken to be zero. -/
def truncated (p : Ptr) : ℤ := p.elim 0 (fun addr => addr + 1)

/-- `compress_file` as in `sys_xclone2.c`, where `out_len` is the pointer of an allocation. -/
def compressFileXclone (fRead fWrite : File) : KProg ℤ := do
  let outLen ← kcall (.kmalloc 4)
  compressFileInto (some (truncated (outLen.map Buf.addr))) fRead fWrite

/-! ## Reading frames back -/

/-- A byte that is a decimal digit. -/
def IsDigit (b : Byte) : Prop := 48 ≤ b.toNat ∧ b.toNat ≤ 57

instance (b : Byte) : Decidable (IsDigit b) := inferInstanceAs (Decidable (_ ∧ _))

-- byte by byte, not over all bytes there are
instance (digits : List Byte) : Decidable (∀ b ∈ digits, IsDigit b) := List.decidableBAll IsDigit digits

def digitsValue (digits : List Byte) : ℕ := digits.foldl (fun n b => 10 * n + (b.toNat - 48)) 0

/-- A leading minus or plus sign and the rest. -/
def splitSign : List Byte → Bool × List Byte
  | [] => (false,[])
  | b :: rest => if b = 45 then (true,rest) else if b = 43 then (false,rest) else (false,b :: rest)

/-- What `kstrtoint` accepts in base ten: an optional sign, digits, an optional newline. -/
def parseInt (str : List Byte) : Option ℤ :=
  let (negative,rest) := splitSign str
  let digits := if rest.getLast? = some 10 then rest.dropLast else rest
  if digits ≠ [] ∧ ∀ b ∈ digits, IsDigit b then
    let value : ℤ := if negative then -(digitsValue digits) else digitsValue digits
    if -2147483648 ≤ value ∧ value < 2147483648 then some value else none
  else none

/-- `kstrtoint`: a string that does not parse leaves the variable as it was. -/
def kstrtoint (str : List Byte) (psize : ℤ) : ℤ := (parseInt str).getD psize

/-- The locals of `decompress_file` that keep a value from round to round or start with none: the
length `psize`, the header buffer `ps`, and the stack behind it, which an unterminated header runs into. -/
structure FrameLocals where
  psize : ℤ
  ps : List Byte
  beyond : List Byte

/-- The locals as they are found on the stack. -/
def FrameLocals.ofStack (stack : List Byte) : FrameLocals where
  psize := CInt.toInt ((stack.take 4).foldr (fun b n => b.toNat + 256 * n) 0 : ℕ)
  ps := (stack.drop 4).take 4
  beyond := stack.drop 8

/-- One frame of `decompress_file`: the bytes of the second read and of the write, or the error of
the decompressor. -/
def decompressRound (fRead fWrite : File) (buff3 buff4 : Option Buf) (locals : FrameLocals)
    (currReadSize currWriteSize : ℤ) : KProg (Except ℤ (ℤ × ℤ × FrameLocals)) := do
  let oldfs1 ← kcall .getFs
  kcall (.setFs .kernelDs)
  let (header,headerBytes) ← kcall (.vfsRead fRead currReadSize 4)
  let ps := Bytes.overlay 0 locals.ps 0 headerBytes
  let psize := kstrtoint (cString (ps ++ locals.beyond)) locals.psize
  let (bytes1,src) ← vfsReadInto fRead buff3 (advance currReadSize header) psize
  kcall (.setFs oldfs1)
  let (dLen,out) ← decompressBuffer src psize buff4
  if dLen < 0 then
    freePages buff3 buff4
    return .error dLen
  else
    let bytes2 ← fileWriteFrom fWrite currWriteSize out dLen
    freePages buff3 buff4
    return .ok (CInt.toInt bytes1,bytes2,{ locals with psize := psize, ps := ps })

/-- The loop of `decompress_file`: it counts down the size of the encoded file by whole chunks. -/
def decompressLoop (fRead fWrite : File) : ℕ → FrameLocals → ℤ → ℤ → ℤ → KProg ℤ
  | 0, _, _, _, _ => return 0
  | rounds+1, locals, fsize, currReadSize, currWriteSize => do
    if fsize > 0 then
      let buff3 ← kcall (.kmalloc PAGE_SIZE)
      let buff4 ← kcall (.kmalloc PAGE_SIZE)
      let (_,fsize) := nextChunk fsize
      match ← decompressRound fRead fWrite buff3 buff4 locals currReadSize currWriteSize with
      | .error dLen => return dLen
      | .ok (bytes1,bytes2,locals) =>
        decompressLoop fRead fWrite rounds locals fsize (CInt.toInt (currReadSize + bytes1))
          (CInt.toInt (currWriteSize + bytes2))
    else return 0

def decompressFile (fRead fWrite : File) : KProg ℤ := do
  let locals := FrameLocals.ofStack (← kcall (.stackBytes PAGE_SIZE))
  let fsize := CInt.toInt (← kcall (.iSizeRead fRead))
  decompressLoop fRead fWrite fsize.toNat locals fsize 0 0

/-! ## `processcompress` -/

def processcompress (P : Platform) (fname : Path) : KProg ℤ := do
  if ← pathBuffers 3 then
    let getTime ← kcall .doGettimeofday
    match ← kcall (.kmalloc PATH_MAX) with
    | none => die
    | some trashbinfolderFilename =>
      match ← fileOpen fname false with
      | .error _ => return -EPERM
      | .ok fRead =>
        let path ← dPath P fRead (some PATH_MAX)
        let name := trashName P (staleTail trashbinfolderFilename.bytes) getTime path cmpSuffix
        let _fsize ← kcall (.iSizeRead fRead)
        match ← fileOpen name true with
        | .error e => return -e
        | .ok fWrite =>
          let _zipErr ← compressFileXclone fRead fWrite
          fileClose fRead
          let _err ← kcall (.vfsUnlink fRead)
          fileClose fWrite
          kcall (.kfree (some trashbinfolderFilename.addr))
          return 0
  else return -ENOMEM

end XClone
