import XClone.Sync.Unlink
import XClone.Sync.EncComp

/-! # What the operations ask of a contract

A contract on calls that allows the plain ones, the raise of the address limit and its
restoration, and the release of what was allocated, is met by every helper of the module;
with the cipher, the unlinks and the release of the key it is met by every operation.
-/
namespace XClone
open Effects Prog

/-- Neither a change of the address limit, nor a release, nor an unlink, nor a use of the cipher. -/
def Call.Plain : Call → Prop
  | .setFs _ => False
  | .kfree _ => False
  | .vfsUnlink _ => False
  | .cryptoBlkcipherEncrypt _ _ _ => False
  | _ => True

/-- The calls of a transfer, its changes of the limit apart. -/
def Call.Transfers : Call → Prop
  | .getFs => True
  | .vfsRead _ _ _ => True
  | .vfsReadNull _ _ _ => True
  | .vfsWrite _ _ _ _ => True
  | .vfsWriteNull _ _ _ => True
  | _ => False

/-- What a loop of transfers relies on. -/
structure TransferContract (A : Call → Prop) (ok : (c : Call) → Answer c → Prop) : Prop where
  transfer : ∀ c, c.Transfers → A c
  raise : A (.setFs .kernelDs)
  restore : ∀ seg, ok .getFs seg → A (.setFs seg)

/-- What the helpers and the compressor rely on. -/
structure Contract (A : Call → Prop) (ok : (c : Call) → Answer c → Prop) : Prop where
  plain : ∀ c, c.Plain → A c
  raise : A (.setFs .kernelDs)
  restore : ∀ seg, ok .getFs seg → A (.setFs seg)
  release : ∀ size b, ok (.kmalloc size) (some b) → A (.kfree (some b.addr))
  releaseNull : A (.kfree none)

/-- What an encryption under this key relies on, its unlink apart. -/
structure CipherContract (A : Call → Prop) (ok : (c : Call) → Answer c → Prop) (key : Ptr) : Prop extends
    Contract A ok where
  cipher : ∀ keyBytes src n, A (.cryptoBlkcipherEncrypt keyBytes src n)
  freeKey : A (.kfree key)

/-- What the operations under this key rely on. -/
structure KeyContract (A : Call → Prop) (ok : (c : Call) → Answer c → Prop) (key : Ptr) : Prop extends
    CipherContract A ok key where
  unlink : ∀ f, A (.vfsUnlink f)

/-- Every call of the program is allowed. -/
abbrev Obeys {α : Type} (A : Call → Prop) (ok : (c : Call) → Answer c → Prop) (p : KProg α) : Prop :=
  Meets A ok (fun _ => True) p

section Rules
variable {A : Call → Prop} {ok : (c : Call) → Answer c → Prop} {α β : Type}

theorem Obeys.pure (a : α) : Obeys A ok (Pure.pure a) := trivial

theorem Obeys.bind {p : KProg α} {f : α → KProg β} (hp : Obeys A ok p) (hf : ∀ a, Obeys A ok (f a)) :
    Obeys A ok (p >>= f) := Meets.bind hp (fun a _ => hf a)

theorem Obeys.call {c : Call} (hc : A c) : Obeys A ok (kcall c) := Meets.perform hc (fun _ _ => trivial)

namespace TransferContract
variable (h : TransferContract A ok)
include h

/-- The limit that was found is put back. -/
theorem saved {f : Seg → KProg α} (hf : ∀ seg, A (.setFs seg) → Obeys A ok (f seg)) : Obeys A ok (kcall .getFs >>= f) :=
  Meets.bind (Q := fun seg => A (.setFs seg)) (Meets.perform (h.transfer _ (by trivial)) h.restore) hf

theorem fileRead (f : File) (offset len : ℤ) : Obeys A ok (fileRead f offset len) :=
  h.saved (fun _ hseg => (Obeys.call h.raise).bind (fun _ => (Obeys.call (h.transfer _ (by trivial))).bind (fun _ =>
    (Obeys.call hseg).bind (fun _ => Obeys.pure _))))

theorem fileWrite (f : File) (offset : ℤ) (buf : List Byte) (len : ℤ) : Obeys A ok (fileWrite f offset buf len) :=
  h.saved (fun _ hseg => (Obeys.call h.raise).bind (fun _ => (Obeys.call (h.transfer _ (by trivial))).bind (fun _ =>
    (Obeys.call hseg).bind (fun _ => Obeys.pure _))))

theorem vfsReadInto (f : File) (buff : Option Buf) (pos len : ℤ) : Obeys A ok (vfsReadInto f buff pos len) := by
  cases buff with
  | none => exact (Obeys.call (h.transfer _ (by trivial))).bind (fun _ => Obeys.pure _)
  | some b => exact (Obeys.call (h.transfer _ (by trivial))).bind (fun _ => Obeys.pure _)

theorem vfsWriteFrom (f : File) (pos : ℤ) (contents : Option (List Byte)) (len : ℤ) :
    Obeys A ok (vfsWriteFrom f pos contents len) := by
  cases contents with
  | none => exact Obeys.call (h.transfer _ (by trivial))
  | some bytes => exact Obeys.call (h.transfer _ (by trivial))

theorem fileReadInto (f : File) (buff : Option Buf) (offset len : ℤ) : Obeys A ok (fileReadInto f buff offset len) :=
  h.saved (fun _ hseg => (Obeys.call h.raise).bind (fun _ => (h.vfsReadInto _ _ _ _).bind (fun _ =>
    (Obeys.call hseg).bind (fun _ => Obeys.pure _))))

theorem fileWriteFrom (f : File) (offset : ℤ) (contents : Option (List Byte)) (len : ℤ) :
    Obeys A ok (fileWriteFrom f offset contents len) :=
  h.saved (fun _ hseg => (Obeys.call h.raise).bind (fun _ => (h.vfsWriteFrom _ _ _ _).bind (fun _ =>
    (Obeys.call hseg).bind (fun _ => Obeys.pure _))))

theorem copyLoop (infile trashbinfile : File) (fuel : ℕ) (pagesread totalBytesWritten : ℤ) :
    Obeys A ok (copyLoop infile trashbinfile fuel pagesread totalBytesWritten) := by
  induction fuel generalizing pagesread totalBytesWritten with
  | zero => exact Obeys.pure _
  | succ fuel ih =>
    refine (h.fileRead _ _ _).bind (fun r => ?_)
    by_cases hr : r.1 < 0
    · simp only [if_pos hr]
      exact Obeys.pure _
    · simp only [if_neg hr]
      refine (h.fileWrite _ _ _ _).bind (fun w => ?_)
      split
      · exact ih _ _
      · exact Obeys.pure _

end TransferContract

namespace Contract
variable (h : Contract A ok)
include h

theorem transfers : TransferContract A ok where
  transfer := by
    rintro c hc
    refine h.plain c ?_
    cases c with
    | getFs => trivial
    | vfsRead f pos len => trivial
    | vfsReadNull f pos len => trivial
    | vfsWrite f pos buf len => trivial
    | vfsWriteNull f pos len => trivial
    | _ => exact hc.elim
  raise := h.raise
  restore := h.restore

theorem call (c : Call) (hc : c.Plain) : Obeys A ok (kcall c) := Obeys.call (h.plain c hc)

/-- A buffer may be released later. -/
theorem alloc (size : ℕ) {f : Option Buf → KProg α} (hnone : Obeys A ok (f none))
    (hsome : ∀ b, A (.kfree (some b.addr)) → Obeys A ok (f (some b))) : Obeys A ok (kcall (.kmalloc size) >>= f) := by
  refine Meets.bind (Q := fun r => ∀ b, r = some b → A (.kfree (some b.addr))) ?_ ?_
  · refine Meets.perform (h.plain _ trivial) ?_
    rintro r hr b rfl
    exact h.release size b hr
  · intro r hr
    cases r with
    | none => exact hnone
    | some b => exact hsome b (hr b rfl)

/-- A page may be released later, whether it is there or not. -/
theorem page (size : ℕ) {f : Option Buf → KProg α} (hf : ∀ r : Option Buf, A (.kfree (r.map Buf.addr)) → Obeys A ok (f r)) :
    Obeys A ok (kcall (.kmalloc size) >>= f) :=
  h.alloc size (hf none h.releaseNull) (fun b hb => hf (some b) hb)

theorem die : Obeys A ok (die : KProg α) := (h.call .oops trivial).bind (fun e => nomatch e)

/-! ## The helpers -/

theorem fileOpen (path : Path) (create : Bool) : Obeys A ok (fileOpen path create) :=
  (h.call .getFs trivial).bind (fun _ => (Obeys.call h.raise).bind (fun _ => h.call _ (by trivial)))

/-- The answer of an open is what the contract says of it. -/
theorem fileOpen_answers (path : Path) (create : Bool) :
    Meets A ok (fun r => ok (.filpOpen path create) r) (XClone.fileOpen path create) :=
  Meets.bind (h.call .getFs trivial) (fun _ _ => Meets.bind (Obeys.call h.raise) (fun _ _ =>
    Meets.perform (h.plain _ (by trivial)) (fun _ hr => hr)))

theorem fileClose (f : File) : Obeys A ok (fileClose f) := h.call _ (by trivial)

omit h in
theorem freeBuffers {bufs : List Buf} (hb : ∀ b ∈ bufs, A (.kfree (some b.addr))) : Obeys A ok (freeBuffers bufs) := by
  induction bufs with
  | nil => exact Obeys.pure _
  | cons b bs ih =>
    rw [List.forall_mem_cons] at hb
    exact (Obeys.call hb.1).bind (fun _ => ih hb.2)

omit h in
theorem freePages {b₃ b₄ : Option Buf} (h₃ : A (.kfree (b₃.map Buf.addr))) (h₄ : A (.kfree (b₄.map Buf.addr))) :
    Obeys A ok (freePages b₃ b₄) := (Obeys.call h₃).bind (fun _ => Obeys.call h₄)

theorem storeOutput (buff : Option Buf) (out : List Byte) : Obeys A ok (storeOutput buff out) := by
  cases buff with
  | some b => exact Obeys.pure _
  | none =>
    rw [XClone.storeOutput]
    split
    · exact Obeys.pure _
    · exact h.die

theorem dPath (P : Platform) (f : File) (size : Option ℕ) : Obeys A ok (dPath P f size) := by
  unfold XClone.dPath
  split
  · exact Obeys.pure _
  · split
    · exact Obeys.pure _
    · exact h.die

theorem pathBuffers (n : ℕ) : Obeys A ok (pathBuffers n) := by
  induction n with
  | zero => exact Obeys.pure _
  | succ n ih => exact h.alloc _ (Obeys.pure _) (fun _ _ => ih)

/-! ## Compression -/

theorem compressBuffer (buf : List Byte) (len : ℤ) (outBuf : Option Buf) (outLen : Option ℤ) :
    Obeys A ok (compressBuffer buf len outBuf outLen) := by
  refine (h.call _ (by trivial)).bind (fun tfm => ?_)
  by_cases htfm : tfm < 0
  · simp only [if_pos htfm]
    exact h.die
  · simp only [if_neg htfm]
    refine (h.call _ (by trivial)).bind (fun r => ?_)
    split
    · exact Obeys.pure _
    · exact (h.storeOutput _ _).bind (fun _ => Obeys.pure _)

theorem compressRound (fRead fWrite : File) {b₃ b₄ : Option Buf} (h₃ : A (.kfree (b₃.map Buf.addr)))
    (h₄ : A (.kfree (b₄.map Buf.addr))) (outLen : Option ℤ) (tei : List Byte) (tempSize pos wpos : ℤ) :
    Obeys A ok (compressRound fRead fWrite b₃ b₄ outLen tei tempSize pos wpos) := by
  refine (h.transfers.fileReadInto _ _ _ _).bind (fun r => (h.compressBuffer _ _ _ _).bind (fun x => ?_))
  by_cases hx : x.1 < 0
  · simp only [if_pos hx]
    exact (freePages h₃ h₄).bind (fun _ => Obeys.pure _)
  · simp only [if_neg hx]
    exact h.transfers.saved (fun _ hseg => (Obeys.call h.raise).bind (fun _ => (h.call _ (by trivial)).bind (fun _ =>
      (h.transfers.vfsWriteFrom _ _ _ _).bind (fun _ => (Obeys.call hseg).bind (fun _ => (freePages h₃ h₄).bind (fun _ =>
        Obeys.pure _))))))

theorem compressLoop (fRead fWrite : File) (outLen : Option ℤ) (rounds : ℕ) (err : ℤ) (tei : List Byte)
    (fsize pos wpos : ℤ) : Obeys A ok (compressLoop fRead fWrite outLen rounds err tei fsize pos wpos) := by
  induction rounds generalizing err tei fsize pos wpos with
  | zero => exact Obeys.pure _
  | succ rounds ih =>
    rw [XClone.compressLoop]
    split
    · refine h.page _ (fun b₃ h₃ => h.page _ (fun b₄ h₄ => ?_))
      refine (h.compressRound _ _ h₃ h₄ _ _ _ _ _).bind (fun r => ?_)
      cases r with
      | error e => exact Obeys.pure _
      | ok r => exact ih _ _ _ _ _
    · exact Obeys.pure _

theorem compressFileXclone (fRead fWrite : File) : Obeys A ok (compressFileXclone fRead fWrite) :=
  (h.call _ (by trivial)).bind (fun _ => (h.call _ (by trivial)).bind (fun _ => (h.call _ (by trivial)).bind (fun _ =>
    h.compressLoop _ _ _ _ _ _ _ _ _)))

end Contract

namespace CipherContract
variable {key : Ptr} (h : CipherContract A ok key)
include h

/-! ## Encryption -/

theorem cloneEncryption (keyBytes : List Byte) (dst : Option Buf) (src : List Byte) (srcLen : ℕ) :
    Obeys A ok (cloneEncryption keyBytes dst src srcLen) := by
  refine (h.call _ (by trivial)).bind (fun tfm => ?_)
  by_cases hx : tfm < 0
  · rw [if_pos hx]
    exact Obeys.pure _
  · rw [if_neg hx]
    exact (h.call _ (by trivial)).bind (fun _ => (Obeys.call (h.cipher _ _ _)).bind (fun _ =>
      (h.storeOutput _ _).bind (fun _ => Obeys.pure _)))

theorem encryptRound (fRead fWrite : File) {b₃ b₄ : Option Buf} (h₃ : A (.kfree (b₃.map Buf.addr)))
    (h₄ : A (.kfree (b₄.map Buf.addr))) (tempSize pos wpos : ℤ) :
    Obeys A ok (encryptRound fRead fWrite key b₃ b₄ tempSize pos wpos) := by
  refine (h.transfers.fileReadInto _ _ _ _).bind (fun r => (h.call _ (by trivial)).bind (fun _ =>
    (h.cloneEncryption _ _ _ _).bind (fun x => ?_)))
  by_cases hx : x.1 < 0
  · simp only [if_pos hx]
    exact (Contract.freePages h₃ h₄).bind (fun _ => Obeys.pure _)
  · simp only [if_neg hx]
    exact (h.transfers.fileWriteFrom _ _ _ _).bind (fun _ => (Contract.freePages h₃ h₄).bind (fun _ => Obeys.pure _))

theorem encryptLoop (fRead fWrite : File) (rounds : ℕ) (fsize pos wpos : ℤ) :
    Obeys A ok (encryptLoop fRead fWrite key rounds fsize pos wpos) := by
  induction rounds generalizing fsize pos wpos with
  | zero => exact Obeys.pure _
  | succ rounds ih =>
    rw [XClone.encryptLoop]
    split
    · refine h.page _ (fun b₃ h₃ => h.page _ (fun b₄ h₄ => ?_))
      refine (h.encryptRound _ _ h₃ h₄ _ _ _).bind (fun r => ?_)
      cases r with
      | error e => exact (Obeys.call h.freeKey).bind (fun _ => Obeys.pure _)
      | ok r => exact ih _ _ _
    · exact Obeys.pure _

/-- The loop, the unlink and the two releases with which an encryption ends. -/
theorem encrypted {fRead : File} (fWrite : File) {b : Buf} (hb : A (.kfree (some b.addr))) (hu : A (.vfsUnlink fRead)) (fsize : ℤ) :
    Obeys A ok (encryptFile fRead fWrite key fsize >>= fun r => match r with
      | some err => return err
      | none => do
        XClone.fileClose fRead
        let err ← kcall (.vfsUnlink fRead)
        XClone.fileClose fWrite
        kcall (.kfree (some b.addr))
        kcall (.kfree key)
        return err) := by
  refine (h.encryptLoop _ _ _ _ _ _).bind (fun r => ?_)
  cases r with
  | some err => exact Obeys.pure _
  | none =>
    exact (h.fileClose _).bind (fun _ => (Obeys.call hu).bind (fun _ => (h.fileClose _).bind (fun _ =>
      (Obeys.call hb).bind (fun _ => (Obeys.call h.freeKey).bind (fun _ => Obeys.pure _)))))

theorem encryptAndUnlink {fRead : File} (fWrite : File) {b : Buf} (hb : A (.kfree (some b.addr))) (hu : A (.vfsUnlink fRead))
    (fsize : ℤ) : Obeys A ok (encryptAndUnlink fRead fWrite key b fsize) :=
  (h.call _ (by trivial)).bind (fun _ => (h.call _ (by trivial)).bind (fun _ => (h.call _ (by trivial)).bind (fun _ =>
    h.encrypted fWrite hb hu fsize)))

/-- The file that is encrypted, and then removed, is the one opened first. -/
theorem encryptTemp {b : Buf} (hb : A (.kfree (some b.addr))) (name : Path)
    (hu : ∀ f, ok (.filpOpen tempTxt false) (.ok f) → A (.vfsUnlink f)) : Obeys A ok (encryptTemp b name key) := by
  refine Meets.bind (h.fileOpen_answers tempTxt false) (fun r hr => ?_)
  cases r with
  | error e => exact Obeys.pure _
  | ok fRead =>
    refine (h.fileOpen _ _).bind (fun r => (h.call _ (by trivial)).bind (fun _ => (h.call _ (by trivial)).bind (fun _ =>
      (h.call _ (by trivial)).bind (fun _ => ?_))))
    cases r with
    | error e => exact h.die
    | ok fWrite => exact (h.call _ (by trivial)).bind (fun _ => h.encrypted _ hb (hu fRead hr) _)

end CipherContract

namespace KeyContract
variable {key : Ptr} (h : KeyContract A ok key)
include h

/-! ## Plain moves -/

theorem copyAndUnlink (fuel : ℕ) (infile trashbinfile : File) {b₁ b₂ b₃ : Buf} (h₁ : A (.kfree (some b₁.addr)))
    (h₂ : A (.kfree (some b₂.addr))) (h₃ : A (.kfree (some b₃.addr))) :
    Obeys A ok (copyAndUnlink fuel infile trashbinfile b₁ b₂ b₃) := by
  refine (h.transfers.copyLoop _ _ _ _ _).bind (fun exit => ?_)
  cases exit with
  | running => exact Obeys.pure _
  | readFailed =>
    exact (h.fileClose _).bind (fun _ => (h.fileClose _).bind (fun _ =>
      (Contract.freeBuffers (by simp [h₁, h₂, h₃])).bind (fun _ => Obeys.pure _)))
  | finished =>
    exact (h.fileClose _).bind (fun _ => (Obeys.call (h.unlink _)).bind (fun _ => (h.fileClose _).bind (fun _ =>
      (Contract.freeBuffers (by simp [h₁, h₂, h₃])).bind (fun _ => Obeys.pure _))))

theorem moveOpened (P : Platform) (fuel : ℕ) (infile : File) {b₁ b₂ : Buf} (h₁ : A (.kfree (some b₁.addr)))
    (h₂ : A (.kfree (some b₂.addr))) : Obeys A ok (moveOpened P fuel infile b₁ b₂) := by
  refine h.alloc _ ?_ (fun b₃ h₃ => ?_)
  · exact (h.fileClose _).bind (fun _ => (Contract.freeBuffers (by simp [h₁, h₂])).bind (fun _ => Obeys.pure _))
  · refine (h.call _ (by trivial)).bind (fun _ => (h.dPath _ _ _).bind (fun _ => (h.fileOpen _ _).bind (fun r => ?_)))
    cases r with
    | error e =>
      exact (h.fileClose _).bind (fun _ => (Contract.freeBuffers (by simp [h₁, h₂, h₃])).bind (fun _ => Obeys.pure _))
    | ok trashbinfile => exact h.copyAndUnlink _ _ _ h₁ h₂ h₃

/-! ## The whole operations -/

theorem processencryption (P : Platform) (fname : Path) : Obeys A ok (processencryption P fname key) := by
  refine (h.fileOpen _ _).bind (fun r => ?_)
  cases r with
  | error e => exact Obeys.pure _
  | ok fRead =>
    refine (h.pathBuffers _).bind (fun granted => ?_)
    cases granted with
    | false => exact Obeys.pure _
    | true =>
      refine (h.call _ (by trivial)).bind (fun _ => h.alloc _ h.die (fun b hb => (h.dPath _ _ _).bind (fun _ => ?_)))
      refine (h.call _ (by trivial)).bind (fun _ => (h.fileOpen _ _).bind (fun r => ?_))
      cases r with
      | error e => exact Obeys.pure _
      | ok fWrite => exact h.encryptAndUnlink _ hb (h.unlink _) _

theorem processcompress (P : Platform) (fname : Path) : Obeys A ok (processcompress P fname) := by
  refine (h.pathBuffers _).bind (fun granted => ?_)
  cases granted with
  | false => exact Obeys.pure _
  | true =>
    refine (h.call _ (by trivial)).bind (fun _ => h.alloc _ h.die (fun b hb => (h.fileOpen _ _).bind (fun r => ?_)))
    cases r with
    | error e => exact Obeys.pure _
    | ok fRead =>
      refine (h.dPath _ _ _).bind (fun _ => (h.call _ (by trivial)).bind (fun _ => (h.fileOpen _ _).bind (fun r => ?_)))
      cases r with
      | error e => exact Obeys.pure _
      | ok fWrite =>
        exact (h.compressFileXclone _ _).bind (fun _ => (h.fileClose _).bind (fun _ =>
          (Obeys.call (h.unlink _)).bind (fun _ => (h.fileClose _).bind (fun _ =>
            (Obeys.call hb).bind (fun _ => Obeys.pure _)))))

theorem processEncComp (P : Platform) (fname : Path) : Obeys A ok (processEncComp P fname key) := by
  refine (h.pathBuffers _).bind (fun granted => ?_)
  cases granted with
  | false => exact Obeys.pure _
  | true =>
    refine (h.call _ (by trivial)).bind (fun _ => h.alloc _ h.die (fun b hb => (h.fileOpen _ _).bind (fun r => ?_)))
    cases r with
    | error e => exact Obeys.pure _
    | ok fRead =>
      refine (h.dPath _ _ _).bind (fun _ => (h.fileOpen _ _).bind (fun r => ?_))
      cases r with
      | error e => exact Obeys.pure _
      | ok fTemp =>
        exact (h.compressFileXclone _ _).bind (fun _ => (h.fileClose _).bind (fun _ =>
          (Obeys.call (h.unlink _)).bind (fun _ => (h.fileClose _).bind (fun _ => h.encryptTemp hb _ (fun f _ => h.unlink f)))))

end KeyContract

end Rules

end XClone
