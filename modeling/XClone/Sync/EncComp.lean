import XClone.Sync.Compression

/-! # Moves with compression and encryption: `process_enc_comp`

The original is compressed into `temp.txt` of the working directory and removed; then
`temp.txt` is opened again, encrypted into the trash entry, and removed.
-/
namespace XClone
open Effects Prog

def tempTxt : Path := ['t','e','m','p','.','t','x','t']

/-- The second half, from the second open of `temp.txt` on. -/
def encryptTemp (trashbinfolderFilename : Buf) (name : Path) (key : Ptr) : KProg ℤ := do
  match ← fileOpen tempTxt false with
  | .error _ => return -EPERM
  | .ok fRead =>
    -- the test behind this open looks at `f_temp` again, so a failure goes unnoticed here
    let fWrite ← fileOpen name true
    let fsize := CInt.toInt (← kcall (.iSizeRead fRead))
    let keyBytes ← kcall (.readString key)
    let _keyStore ← kcall (.kmalloc (8 * keyBytes.length))
    match fWrite with
    | .error _ => die
    | .ok fWrite =>
      let _keyErr ← kcall (.vfsSetxattr fWrite keyBytes)
      match ← encryptFile fRead fWrite key fsize with
      | some err => return err
      | none =>
        fileClose fRead
        let err ← kcall (.vfsUnlink fRead)
        fileClose fWrite
        kcall (.kfree (some trashbinfolderFilename.addr))
        kcall (.kfree key)
        return err

def processEncComp (P : Platform) (fname : Path) (key : Ptr) : KProg ℤ := do
  if ← pathBuffers 3 then
    let getTime ← kcall .doGettimeofday
    match ← kcall (.kmalloc PATH_MAX) with
    | none => die
    | some trashbinfolderFilename =>
      match ← fileOpen fname false with
      | .error _ => return -EPERM
      | .ok fRead =>
        let path ← dPath P fRead (some PATH_MAX)
        let name := trashName P (staleTail trashbinfolderFilename.bytes) getTime path (encSuffix ++ cmpSuffix)
        match ← fileOpen tempTxt true with
        | .error e => return -e
        | .ok fTemp =>
          let _zipErr ← compressFileXclone fRead fTemp
          fileClose fRead
          let _err ← kcall (.vfsUnlink fRead)
          fileClose fTemp
          encryptTemp trashbinfolderFilename name key
  else return -ENOMEM

/-! ## Two clients at once -/

/-- The name of the trash entry of a request that starts in this state; the name buffer is its fourth allocation. -/
def encCompName (P : Platform) (t : Task) (fname : Path) : Path :=
  trashName P (staleTail (leftover (t.garbage.getD 3 []) PATH_MAX)) t.now (resolve t.cwd fname)
    (encSuffix ++ cmpSuffix)

/-- What one client asks for. -/
structure EncCompRequest where
  fname : Path
  key : Ptr
  task : Task

def EncCompRequest.thread (P : Platform) (q : EncCompRequest) : Thread Call Answer Task ℤ :=
  ⟨some (processEncComp P q.fname q.key),q.task⟩

def EncCompRequest.entryName (P : Platform) (q : EncCompRequest) : Path :=
  resolve q.task.cwd (encCompName P q.task q.fname)

/-- Two requests before their first step. -/
def clients (P : Platform) (q₁ q₂ : EncCompRequest) (fs : Fs) : Sharing.Pair Call Answer Task Path Slot ℤ ℤ :=
  ⟨q₁.thread P,q₂.thread P,fs⟩

/-- The disk after the first request, and then the second one. -/
def oneAfterTheOther (P : Platform) (q₁ q₂ : EncCompRequest) (fs : Fs) : Fs :=
  ((sharing P).sequential (clients P q₁ q₂ fs)).store

/-- The schedule `w` leaves the two trash entries of one of the two orders. -/
def Undisturbed (P : Platform) (q₁ q₂ : EncCompRequest) (fs : Fs) (w : List Sharing.Side) : Prop :=
  let done : Fs := ((sharing P).exec w (clients P q₁ q₂ fs)).store
  (∀ q ∈ [q₁,q₂], done.entry (q.entryName P) = (oneAfterTheOther P q₁ q₂ fs).entry (q.entryName P)) ∨
  (∀ q ∈ [q₁,q₂], done.entry (q.entryName P) = (oneAfterTheOther P q₂ q₁ fs).entry (q.entryName P))

/-- In every complete schedule that lets one client be done with each file before the other
one comes to it, the requests do not interfere. -/
theorem encComp_undisturbed (P : Platform) (q₁ q₂ : EncCompRequest) (fs : Fs) (w : List Sharing.Side)
    (hdone : Sharing.Complete ((sharing P).exec w (clients P q₁ q₂ fs)))
    (horder : Sharing.LeftFirst ((sharing P).accesses w (clients P q₁ q₂ fs)) ∨
      Sharing.RightFirst ((sharing P).accesses w (clients P q₁ q₂ fs))) : Undisturbed P q₁ q₂ fs w := by
  rcases horder with hl | hr
  · left
    intro q _
    rw [(sharing P).exec_eq_sequential hdone hl]
    rfl
  · right
    intro q _
    rw [(sharing P).exec_eq_sequential_swap hdone hr]
    rfl

section Runs
open Sharing.Side

/-- A request for a file, with a key in the first buffer of its client. -/
def keyedRequest (fname : Path) : EncCompRequest := ⟨fname,some 0,(Task.fresh ['/'] 0 {}).withKey [107,0]⟩

def twoFiles : Fs := Fs.ofList [(['/','a'],[1]),(['/','b'],[2])]

/-- The right client opens its file, the left one runs to its end, the right one goes on. -/
def overtaking : List Sharing.Side := List.replicate 8 right ++ List.replicate 63 left ++ List.replicate 55 right

theorem encComp_undisturbed_overtaking :
    Undisturbed .bare (keyedRequest ['/','a']) (keyedRequest ['/','b']) twoFiles overtaking :=
  encComp_undisturbed .bare (keyedRequest ['/','a']) (keyedRequest ['/','b']) twoFiles overtaking
    (by decide +kernel) (.inl (by decide +kernel))

/-- Both clients have compressed into `temp.txt` when the left one encrypts and removes it. -/
def crossing : List Sharing.Side :=
  List.replicate 32 right ++ List.replicate 63 left ++ List.replicate 3 right

theorem encComp_crossing_disturbs :
    ¬ Undisturbed .bare (keyedRequest ['/','a']) (keyedRequest ['/','b']) twoFiles crossing := by
  intro h
  rcases h with h | h
  · have := h (keyedRequest ['/','b']) (by simp)
    revert this
    decide +kernel
  · have := h (keyedRequest ['/','b']) (by simp)
    revert this
    decide +kernel

end Runs

end XClone
