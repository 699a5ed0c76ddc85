import XClone.Sync.Moves
import XClone.Sync.Slots

/-! # What is stored of the leftovers in memory

No buffer is cleared before it is used. The name of an entry takes from its buffer what stands behind the
first four bytes up to a terminator, the first header takes from the stack what stands behind its own
terminator, and a payload takes from its page what the compressor did not fill of the bytes that are kept.
-/
namespace XClone
open Effects

/-! ## Names -/

theorem ofNat_byte_injective : Function.Injective (fun b : Byte => Char.ofNat b.toNat) := by
  intro a b h
  have hvalid : ∀ d : Byte, (Char.ofNat d.toNat).toNat = d.toNat := by
    intro d
    have hlt := d.toNat_lt
    have hok : d.toNat.isValidChar := .inl (by omega)
    have haux : Char.ofNat d.toNat = Char.ofNatAux d.toNat hok := dif_pos hok
    rw [haux]
    rfl
  have hnat := congrArg Char.toNat h
  simp only [hvalid] at hnat
  exact UInt8.toNat_inj.mp hnat

theorem staleTail_eq_iff (buffer buffer' : List Byte) :
    staleTail buffer = staleTail buffer' ↔ cString (buffer.drop 4) = cString (buffer'.drop 4) :=
  (List.map_injective_iff.mpr ofNat_byte_injective).eq_iff

/-! ## Headers and payloads -/

/-- How many bytes `snprintf` prints of a length, with the terminator. -/
def printedLength (n : ℤ) : ℕ := ((decimal n).take 3).length + 1

section Frames
variable {P : Platform} {bufs bufs' : ℕ → List Byte} {tei tei' : List Byte} {xs : List (List Byte)} {i : ℕ}

theorem snprintf4_eq_iff (tei tei' : List Byte) (n : ℤ) :
    snprintf4 tei n = snprintf4 tei' n ↔ tei.drop (printedLength n) = tei'.drop (printedLength n) := by
  have hlen : (asciiBytes ((decimal n).take 3) ++ [0]).length = printedLength n := by simp [asciiBytes, printedLength]
  rw [snprintf4, snprintf4, Bytes.overlay_of_le _ _ (Nat.zero_le _), Bytes.overlay_of_le _ _ (Nat.zero_le _), Nat.zero_add, hlen,
    List.take_zero, List.take_zero, List.append_cancel_left_eq]

/-- Of a payload of which `n` bytes are kept. -/
theorem take_payload_eq_iff (buffer buffer' z : List Byte) {n : ℕ} (hn : n ≤ 8) :
    (payload buffer z).take n = (payload buffer' z).take n ↔ (buffer.take n).drop z.length = (buffer'.take n).drop z.length := by
  have hkept : ∀ b, (payload b z).take n = z.take n ++ (b.take n).drop z.length := by
    intro b
    rw [payload, List.take_take, min_eq_left (show n ≤ sizeofPointer from hn), Bytes.overlay_of_le _ _ (Nat.zero_le _),
      List.take_zero, List.nil_append, Nat.zero_add, List.take_append, List.drop_take]
  rw [hkept, hkept, List.append_cancel_left_eq]

variable (P) in
/-- The first header shows the same of both stacks. -/
def SameHeader (tei tei' : List Byte) : List (List Byte) → Prop
  | [] => True
  | x :: _ => tei.drop (printedLength (P.deflate x).length) = tei'.drop (printedLength (P.deflate x).length)

variable (P bufs bufs') in
/-- All payloads show the same of both runs of pages; eight bytes of the last one are kept, and four of the others. -/
def SamePayloads : ℕ → List (List Byte) → Prop
  | _, [] => True
  | i, x :: xs =>
    let kept := if xs = [] then 8 else 4
    ((bufs (i+1)).take kept).drop (P.deflate x).length = ((bufs' (i+1)).take kept).drop (P.deflate x).length ∧
      SamePayloads (i+2) xs

instance SameHeader.decidable : ∀ xs, Decidable (SameHeader P tei tei' xs)
  | [] => inferInstanceAs (Decidable True)
  | _ :: _ => inferInstanceAs (Decidable (_ = _))

instance SamePayloads.decidable : ∀ i xs, Decidable (SamePayloads P bufs bufs' i xs)
  | _, [] => inferInstanceAs (Decidable True)
  | i, _ :: xs =>
    have := SamePayloads.decidable (i+2) xs
    inferInstanceAs (Decidable (_ ∧ _))

theorem SameHeader.refl (tei : List Byte) (xs : List (List Byte)) : SameHeader P tei tei xs := by
  cases xs with
  | nil => trivial
  | cons x xs => rfl

/-- Headers behind the first one are printed over the header before them, so that they show nothing new. -/
theorem frameBytes_eq_iff (htei : tei.length = 4) (htei' : tei'.length = 4) (hbufs : ∀ j, sizeofPointer ≤ (bufs j).length)
    (hbufs' : ∀ j, sizeofPointer ≤ (bufs' j).length) : frameBytes P bufs i tei xs = frameBytes P bufs' i tei' xs ↔
      SameHeader P tei tei' xs ∧ SamePayloads P bufs bufs' i xs := by
  induction xs generalizing i tei tei' with
  | nil => exact iff_of_true rfl ⟨trivial,trivial⟩
  | cons x xs ih =>
    obtain ⟨n,hn⟩ : ∃ n, (if xs = [] then 8 else 4) = n := ⟨_,rfl⟩
    have hn8 : n ≤ 8 := by
      rw [← hn]
      split <;> omega
    have hheader := snprintf4_eq_iff tei tei' (P.deflate x).length
    have hbody := take_payload_eq_iff (bufs (i+1)) (bufs' (i+1)) (P.deflate x) hn8
    have hlenh := length_snprintf4 htei (P.deflate x).length
    have hlenh' := length_snprintf4 htei' (P.deflate x).length
    have hlenb : ((payload (bufs (i+1)) (P.deflate x)).take n).length = ((payload (bufs' (i+1)) (P.deflate x)).take n).length := by
      rw [List.length_take, List.length_take, length_payload (hbufs _), length_payload (hbufs' _)]
    have hrest := ih (i := i+2) hlenh hlenh'
    simp only [frameBytes, SameHeader, SamePayloads, hn]
    rw [← hheader, ← hbody]
    constructor
    · intro h
      obtain ⟨hfront,hlater⟩ := List.append_inj h (by rw [List.length_append, List.length_append, hlenh, hlenh', hlenb])
      obtain ⟨hfirst,hsecond⟩ := List.append_inj hfront (hlenh.trans hlenh'.symm)
      exact ⟨hfirst,hsecond,(hrest.mp hlater).2⟩
    · rintro ⟨hfirst,hsecond,hlater⟩
      have hsame : SameHeader P (snprintf4 tei (P.deflate x).length) (snprintf4 tei' (P.deflate x).length) xs := by
        rw [hfirst]
        exact SameHeader.refl _ xs
      rw [hrest.mpr ⟨hsame,hlater⟩, hfirst, hsecond]

end Frames

/-- What `compress_file` reads of a file, in the pieces it reads. -/
def compressedChunks (c : List Byte) : List (List Byte) := Bytes.chunks 4080 (c.take (CInt.toInt c.length).toNat)

section Files
variable (P : Platform) (t t' : Task) (c : List Byte)

theorem encodedFile_eq_iff : encodedFile P t c = encodedFile P t' c ↔
    SameHeader P (leftover t.stack 4) (leftover t'.stack 4) (compressedChunks c) ∧
      SamePayloads P (fun j => t.found j PAGE_SIZE) (fun j => t'.found j PAGE_SIZE) 0 (compressedChunks c) := by
  rw [encodedFile_eq, encodedFile_eq]
  exact frameBytes_eq_iff (length_leftover _ 4) (length_leftover _ 4) (sizeofPointer_le_found t) (sizeofPointer_le_found t')

/-- How much is stored does not depend on the leftovers. -/
theorem length_encodedFile_eq : (encodedFile P t c).length = (encodedFile P t' c).length := by
  rw [encodedFile_eq, encodedFile_eq]
  by_cases hxs : Bytes.chunks 4080 (c.take (CInt.toInt c.length).toNat) = []
  · rw [hxs]
    rfl
  · rw [length_frameBytes (length_leftover _ 4) (sizeofPointer_le_found t) hxs,
      length_frameBytes (length_leftover _ 4) (sizeofPointer_le_found t') hxs]

theorem length_encryptedForm (K : List Byte) {z z' : List Byte} (h : z.length = z'.length) :
    (encryptedForm P K z).length = (encryptedForm P K z').length := by
  have hr : z.length % 4080 < 4080 := Nat.mod_lt _ (by omega)
  have hz : z.length = 4080 * (z.length / 4080) + z.length % 4080 := (Nat.div_add_mod _ _).symm
  rw [encryptedForm, encryptedForm, length_flatMap_encryptChunk P K hz hr, length_flatMap_encryptChunk P K (h.symm.trans hz) hr]

variable {t t' c} in
theorem overwritten_eq_iff {fs : Fs} {path : Path} {z z' : List Byte} (h : z.length = z'.length) :
    fs.overwritten path z = fs.overwritten path z' ↔ z = z' := Bytes.overlay_zero_inj h

variable {t t' c} in
theorem length_overwritten {fs : Fs} {path : Path} {z z' : List Byte} (h : z.length = z'.length) :
    (fs.overwritten path z).length = (fs.overwritten path z').length := by
  rw [Fs.overwritten, Fs.overwritten, Bytes.overlay_of_le _ _ (Nat.zero_le _), Bytes.overlay_of_le _ _ (Nat.zero_le _)]
  simp [h]

end Files

/-! ## Calls that differ in the leftovers only -/

namespace Request

/-- The same call where other bytes were left in the buffers and on the stack. -/
def leaving (q : Request) (garbage : List (List Byte)) (stack : List Byte) : Request :=
  { q with task := { q.task with garbage := garbage, stack := stack } }

/-- The name that the call builds. -/
def name (P : Platform) (q : Request) (op : Operation) : Path :=
  NameRequest.name P ⟨op,q.task.found 3 PATH_MAX,q.task.now,q.original⟩

/-- Both calls make an entry of the same name with the same bytes. -/
def SameEntry (P : Platform) (fuel : ℕ) (op : Operation) (fs : Fs) (q q' : Request) : Prop :=
  q.name P op = q'.name P op ∧
    (q.after P fuel fs).entry (resolve q.task.cwd (q.name P op)) = (q'.after P fuel fs).entry (resolve q'.task.cwd (q'.name P op))

/-- What the name takes from its buffer, which is the fourth one that is allocated. -/
def nameLeftover (q : Request) : List Byte := cString ((q.task.found 3 PATH_MAX).drop 4)

/-- The array `tei`. -/
def tei (q : Request) : List Byte := leftover q.task.stack 4

/-- The pages of `compress_file`, two for each chunk. -/
def page (q : Request) (j : ℕ) : List Byte := q.task.found (5+j) PAGE_SIZE

/-- What is stored of the leftovers is the same in both calls; `xs` are the pieces of the file. -/
structure SameLeftovers (P : Platform) (op : Operation) (xs : List (List Byte)) (q q' : Request) : Prop where
  buffer : q.nameLeftover = q'.nameLeftover
  header : op ≠ .encrypt → SameHeader P q.tei q'.tei xs
  pages : op ≠ .encrypt → SamePayloads P q.page q'.page 0 xs

section TwoRuns
variable (P : Platform) {fuel : ℕ} {q : Request} {op : Operation} {fs : Fs} {c : List Byte} (garbage : List (List Byte))
  (stack : List Byte)

theorem name_leaving_iff (hop : op ≠ .move) :
    q.name P op = (q.leaving garbage stack).name P op ↔ q.nameLeftover = (q.leaving garbage stack).nameLeftover := by
  rw [nameLeftover, nameLeftover, ← staleTail_eq_iff]
  cases op with
  | move => exact absurd rfl hop
  | compress | encrypt | encComp =>
    refine (NameRequest.name_eq_iff P _ _).trans ⟨fun h => h.1,fun h => ⟨h,rfl,rfl⟩⟩

theorem encodedFile_atPages_iff (q' : Request) : encodedFile P q.task.atPages c = encodedFile P q'.task.atPages c ↔
    SameHeader P q.tei q'.tei (compressedChunks c) ∧ SamePayloads P q.page q'.page 0 (compressedChunks c) := by
  have hiff := encodedFile_eq_iff P q.task.atPages q'.task.atPages c
  simp only [Task.found_atPages] at hiff
  exact hiff

/-- Under one name only what `compress_file` makes of the file can differ. -/
theorem stored_leaving_iff (hop : op ≠ .move) (hname : q.name P op = (q.leaving garbage stack).name P op) :
    q.stored P op fs c = (q.leaving garbage stack).stored P op fs c ↔
      (op ≠ .encrypt → encodedFile P q.task.atPages c = encodedFile P (q.leaving garbage stack).task.atPages c) := by
  have hpath : (q.leaving garbage stack).entryPath P op = q.entryPath P op := congrArg (resolve q.task.cwd) hname.symm
  have hlen := length_encodedFile_eq P q.task.atPages (q.leaving garbage stack).task.atPages c
  unfold stored
  rw [hpath]
  cases op with
  | move => exact absurd rfl hop
  | compress =>
    exact (overwritten_eq_iff hlen).trans ⟨fun h _ => h,fun h => h (by decide)⟩
  | encrypt => exact iff_of_true rfl (fun h => absurd rfl h)
  | encComp =>
    have hscratch : (q.scratch P fs c).length = ((q.leaving garbage stack).scratch P fs c).length := length_overwritten hlen
    refine (overwritten_eq_iff (length_encryptedForm P _ hscratch)).trans ⟨?_,?_⟩
    · intro h _
      exact (overwritten_eq_iff hlen).mp (encryptedChunks_injective P q.keyString h)
    · intro h
      have hsame : q.scratch P fs c = (q.leaving garbage stack).scratch P fs c := (overwritten_eq_iff hlen).mpr (h (by decide))
      exact congrArg (encryptedForm P q.keyString) hsame

theorem Proceeds.after_stored (hq : q.Proceeds P fuel op fs c) (hc : fs.entry q.original = some c) :
    (q.after P fuel fs).entry (q.entryPath P op) = some (q.stored P op fs c) := by
  rw [hq.after_entry P hc, directory]
  split
  all_goals exact Function.update_self _ _ _

/-- Two calls in which nothing fails, and that differ in the leftovers only, make the same entry exactly if what is stored of
these is the same. -/
theorem sameEntry_iff (hop : op ≠ .move) (hc : fs.entry q.original = some c) (hq : q.Proceeds P fuel op fs c)
    (hq' : (q.leaving garbage stack).Proceeds P fuel op fs c) :
    SameEntry P fuel op fs q (q.leaving garbage stack) ↔ SameLeftovers P op (compressedChunks c) q (q.leaving garbage stack) := by
  have hafter := hq.after_stored P hc
  have hafter' := hq'.after_stored P hc
  have hname := name_leaving_iff P (q := q) garbage stack hop
  have hencoded := encodedFile_atPages_iff P (q := q) (c := c) (q.leaving garbage stack)
  obtain ⟨xs,hxs⟩ : ∃ xs, compressedChunks c = xs := ⟨_,rfl⟩
  rw [hxs] at hencoded ⊢
  constructor
  · rintro ⟨hsame,hbytes⟩
    have hstored := Option.some.inj (hafter.symm.trans (hbytes.trans hafter'))
    have hboth := fun h => hencoded.mp ((stored_leaving_iff P garbage stack hop hsame).mp hstored h)
    exact ⟨hname.mp hsame,fun h => (hboth h).1,fun h => (hboth h).2⟩
  · intro h
    have hsame := hname.mpr h.buffer
    have hstored : q.stored P op fs c = (q.leaving garbage stack).stored P op fs c :=
      (stored_leaving_iff P garbage stack hop hsame).mpr (fun hne => hencoded.mpr ⟨h.header hne,h.pages hne⟩)
    exact ⟨hsame,hafter.trans ((congrArg some hstored).trans hafter'.symm)⟩

end TwoRuns

end Request

/-- `/a` of two chunks, where the leftovers differ in all that is not stored of them. -/
theorem sameEntry_chunks :
    let q : Request := ⟨4087,['/','a'],4087,some 0,(Task.fresh ['/'] 0 {}).withKey [107,0]⟩
    Request.SameEntry .bare 1 .encComp (Fs.ofList [(['/','a'],List.replicate 4081 7)]) q
      (q.leaving [[],[],[],[9,9,9,9],[1],[2,2],[3,3,3],[4],[5,0,0,0,0,0,0,0,6]] [1,2,3,4]) := by
  intro q
  have htemp : resolve ['/'] tempTxt ≠ ['/','a'] := by decide
  have hsound : ∀ garbage stack, resolve ['/'] ((q.leaving garbage stack).name .bare .encComp) ≠ ['/','a'] →
      (q.leaving garbage stack).Sound .bare 1 .encComp (Fs.ofList [(['/','a'],List.replicate 4081 7)]) := by
    intro garbage stack hname
    refine ⟨rfl,rfl,(fun _ => rfl),(fun h => by cases h),⟨Fs.entry_ofList_of_ne hname,rfl⟩,
      (fun _ => ⟨Fs.entry_ofList_of_ne htemp,rfl⟩),?_⟩
    intro c _
    exact ⟨(fun h => by cases h),(fun h => by cases h)⟩
  have hq : q.Sound .bare 1 .encComp (Fs.ofList [(['/','a'],List.replicate 4081 7)]) := hsound [] [] (by decide +kernel)
  refine (Request.sameEntry_iff .bare _ _ (by decide) rfl (hq.proceeds rfl) ((hsound _ _ (by decide +kernel)).proceeds rfl)).mpr ?_
  refine ⟨?_,fun _ => ?_,fun _ => ?_⟩
  all_goals decide +kernel

/-- One byte in `/a`, and a page that is not clear: the rest of the payload is what the page held. -/
theorem page_stored :
    let q : Request := ⟨4083,['/','a'],4083,some 0,Task.fresh ['/'] 0 {}⟩
    let q' := q.leaving [[],[],[],[],[],[],[0,1]] []
    q.Proceeds .bare 1 .compress oneByte [7] ∧ q'.Proceeds .bare 1 .compress oneByte [7] ∧
      q.name .bare .compress = q'.name .bare .compress ∧ ¬ Request.SameEntry .bare 1 .compress oneByte q q' := by
  intro q q'
  have hsound : ∀ garbage, (oneByte.entry (resolve ['/'] ((q.leaving garbage []).name .bare .compress)) = none) →
      (q.leaving garbage []).Sound .bare 1 .compress oneByte := by
    intro garbage hfree
    refine ⟨rfl,rfl,(fun h => by cases h),(fun h => by cases h),⟨hfree,rfl⟩,(fun h => by cases h),?_⟩
    intro c _
    exact ⟨(fun h => by cases h),(fun h => by cases h)⟩
  have hq : q.Proceeds .bare 1 .compress oneByte [7] := (hsound [] (by decide +kernel)).proceeds rfl
  have hq' : q'.Proceeds .bare 1 .compress oneByte [7] := (hsound _ (by decide +kernel)).proceeds rfl
  have hname : q.name .bare .compress = q'.name .bare .compress := by decide +kernel
  refine ⟨hq,hq',hname,?_⟩
  rintro ⟨_,hbytes⟩
  have hstored := Option.some.inj ((hq.after_stored .bare rfl).symm.trans (hbytes.trans (hq'.after_stored .bare rfl)))
  have hencoded := (Request.stored_leaving_iff .bare _ _ (by decide) hname).mp hstored (by decide)
  have hpages := ((Request.encodedFile_atPages_iff .bare q').mp hencoded).2
  revert hpages
  decide +kernel

end XClone
