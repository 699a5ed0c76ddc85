import Mathlib.Data.List.TakeDrop
import Mathlib.Data.List.Infix
import Mathlib.Data.Nat.Init
import Mathlib.Tactic.Ring

/-! # Overwriting and chunking of sequences

`overlay` is what a positioned write does to a sequence: the cells from the position
on are replaced, a gap before the position is filled. `chunks` cuts a sequence into
pieces of one length with a shorter last piece.
-/
namespace Bytes
variable {α β : Type*}

/-- `old` after writing `bs` at `pos`; a gap is filled with `z`, an empty write is no write. -/
def overlay (z : α) (old : List α) (pos : ℕ) (bs : List α) : List α :=
  if bs.isEmpty then old
  else (old ++ List.replicate (pos - old.length) z).take pos ++ bs ++ old.drop (pos + bs.length)

@[simp] theorem overlay_nil (z : α) (old : List α) (pos : ℕ) : overlay z old pos [] = old := rfl

theorem overlay_of_le (z : α) {old : List α} {pos : ℕ} (bs : List α) (h : pos ≤ old.length) :
    overlay z old pos bs = old.take pos ++ bs ++ old.drop (pos + bs.length) := by
  cases bs with
  | nil => simp [overlay]
  | cons b bs =>
    simp only [overlay, List.isEmpty_cons, Bool.false_eq_true, ↓reduceIte,
      Nat.sub_eq_zero_of_le h, List.replicate_zero, List.append_nil]

/-- The written bytes are found again at the start. -/
theorem take_overlay_zero (z : α) (old bs : List α) : (overlay z old 0 bs).take bs.length = bs := by
  rw [overlay_of_le z bs (Nat.zero_le _), List.take_zero, List.nil_append, List.take_left]

theorem length_le_overlay_zero (z : α) (old bs : List α) : bs.length ≤ (overlay z old 0 bs).length := by
  rw [overlay_of_le z bs (Nat.zero_le _), List.take_zero, List.nil_append, List.length_append]
  exact Nat.le_add_right _ _

theorem length_old_le_overlay_zero (z : α) (old bs : List α) : old.length ≤ (overlay z old 0 bs).length := by
  rw [overlay_of_le z bs (Nat.zero_le _), List.take_zero, List.nil_append, List.length_append, List.length_drop]
  omega

/-- A write at the start of nothing. -/
@[simp] theorem overlay_start (z : α) (bs : List α) : overlay z [] 0 bs = bs := by
  rw [overlay_of_le z bs (Nat.zero_le _)]
  simp

/-- A second write that covers the end of the first one. -/
theorem overlay_overlap (z : α) (bs' : List α) {old bs : List α} {pos k : ℕ} (hpos : pos ≤ old.length) (hk : k ≤ bs.length)
    (hcover : bs.length ≤ k + bs'.length) :
    overlay z (overlay z old pos bs) (pos+k) bs' = overlay z old pos (bs.take k ++ bs') := by
  have hfront : (old.take pos).length = pos := List.length_take_of_le hpos
  have hlen : pos + k ≤ (old.take pos ++ bs ++ old.drop (pos + bs.length)).length := by
    simp only [List.length_append, hfront]
    omega
  have htake : (old.take pos ++ bs ++ old.drop (pos + bs.length)).take (pos+k) = old.take pos ++ bs.take k := by
    rw [List.append_assoc, List.take_append, hfront, Nat.add_sub_cancel_left, List.take_append_of_le_length hk,
      List.take_of_length_le (by omega)]
  have hdrop : (old.take pos ++ bs ++ old.drop (pos + bs.length)).drop (pos + k + bs'.length) = old.drop (pos + (k + bs'.length)) := by
    rw [List.drop_append, List.length_append, hfront, List.drop_of_length_le (by rw [List.length_append, hfront]; omega),
      List.nil_append, List.drop_drop]
    congr 1
    omega
  rw [overlay_of_le z bs hpos, overlay_of_le z bs' hlen, overlay_of_le z _ hpos, htake, hdrop, List.length_append,
    List.length_take_of_le hk]
  simp only [List.append_assoc]

/-- Two writes one behind the other are one write. -/
theorem overlay_overlay (z : α) (old bs bs' : List α) :
    overlay z (overlay z old 0 bs) bs.length bs' = overlay z old 0 (bs ++ bs') := by
  have hboth := overlay_overlap z bs' (Nat.zero_le old.length) (le_refl bs.length) (by omega)
  rwa [Nat.zero_add, List.take_length] at hboth

/-- What is written at the start can be told from the outcome, if its length is known. -/
theorem overlay_zero_inj {z : α} {old bs bs' : List α} (hlen : bs.length = bs'.length) :
    overlay z old 0 bs = overlay z old 0 bs' ↔ bs = bs' := by
  constructor
  · intro h
    have htake := congrArg (List.take bs.length) h
    rwa [take_overlay_zero, hlen, take_overlay_zero] at htake
  · intro h
    rw [h]

theorem length_overlay_le (z : α) {old : List α} {pos k : ℕ} (bs : List α) (hold : old.length ≤ k)
    (hbs : pos + bs.length ≤ k) : (overlay z old pos bs).length ≤ k := by
  unfold overlay
  split
  · exact hold
  · simp only [List.length_append, List.length_take, List.length_replicate, List.length_drop]
    omega

/-- Copying the next `n` cells of `c` over `o` extends the copied part by `n`. -/
theorem overlay_copy (z : α) (c o : List α) {m n : ℕ} (h : m + n ≤ c.length) :
    overlay z (c.take m ++ o.drop m) m ((c.drop m).take n) = c.take (m+n) ++ o.drop (m+n) := by
  have hm : (c.take m).length = m := List.length_take_of_le (by omega)
  have hn : ((c.drop m).take n).length = n := by
    rw [List.length_take_of_le]
    rw [List.length_drop]
    omega
  rw [overlay_of_le z _ (by rw [List.length_append, hm]; omega), hn, List.take_left' hm]
  have hd : (c.take m ++ o.drop m).drop (m+n) = o.drop (m+n) := by
    rw [List.drop_append, hm, List.drop_of_length_le (by rw [hm]; omega), List.nil_append,
      List.drop_drop]
    congr 1
    omega
  rw [hd, List.take_add]

/-! ## Chunks -/

private def chunksAux (n : ℕ) : ℕ → List α → List (List α)
  | 0, _ => []
  | fuel+1, l => if l.isEmpty then [] else l.take n :: chunksAux n fuel (l.drop n)

/-- The pieces of length `n` of a list; the last one may be shorter, none is empty. -/
def chunks (n : ℕ) (l : List α) : List (List α) := chunksAux n l.length l

private theorem chunksAux_fuel {n : ℕ} (hn : 0 < n) {fuel : ℕ} {l : List α} (h : l.length ≤ fuel) :
    chunksAux n fuel l = chunks n l := by
  suffices hs : ∀ f g, ∀ l : List α, l.length ≤ f → l.length ≤ g → chunksAux n f l = chunksAux n g l from
    hs fuel l.length l h le_rfl
  intro f
  induction f with
  | zero =>
    intro g l hf _
    rw [List.length_eq_zero_iff.mp (by omega : l.length = 0)]
    cases g <;> rfl
  | succ f ih =>
    intro g l hf hg
    cases g with
    | zero =>
      rw [List.length_eq_zero_iff.mp (by omega : l.length = 0)]
      rfl
    | succ g =>
      cases l with
      | nil => rfl
      | cons a l =>
        simp only [chunksAux, List.isEmpty_cons, Bool.false_eq_true, ↓reduceIte]
        rw [ih g ((a::l).drop n)]
        · simp only [List.length_drop, List.length_cons] at *
          omega
        · simp only [List.length_drop, List.length_cons] at *
          omega

@[simp] theorem chunks_nil (n : ℕ) : chunks n ([] : List α) = [] := rfl

theorem chunks_of_ne_nil {n : ℕ} (hn : 0 < n) {l : List α} (hl : l ≠ []) :
    chunks n l = l.take n :: chunks n (l.drop n) := by
  cases l with
  | nil => exact absurd rfl hl
  | cons a l =>
    change chunksAux n (l.length+1) (a::l) = _
    simp only [chunksAux, List.isEmpty_cons, Bool.false_eq_true, ↓reduceIte]
    rw [chunksAux_fuel hn (by simp only [List.length_drop, List.length_cons]; omega)]

/-- Induction along the chunks of a list. -/
theorem chunk_induction {n : ℕ} (hn : 0 < n) {P : List α → Prop} (nil : P [])
    (step : ∀ l, l ≠ [] → P (l.drop n) → P l) (l : List α) : P l := by
  induction hk : l.length using Nat.strong_induction_on generalizing l with
  | _ k ih =>
    by_cases hl : l = []
    · exact hl ▸ nil
    · refine step l hl (ih (l.drop n).length ?_ _ rfl)
      have := List.length_pos_of_ne_nil hl
      rw [List.length_drop]
      omega

theorem length_chunks {n : ℕ} (hn : 0 < n) (l : List α) : (chunks n l).length = (l.length + n - 1) / n := by
  induction l using chunk_induction hn with
  | nil => simp [Nat.div_eq_of_lt (by omega : n - 1 < n)]
  | step l hl ih =>
    have hpos := List.length_pos_of_ne_nil hl
    rw [chunks_of_ne_nil hn hl, List.length_cons, ih, List.length_drop]
    by_cases h : l.length ≤ n
    · rw [Nat.sub_eq_zero_of_le h, Nat.div_eq_of_lt (by omega),
        Nat.div_eq_of_lt_le (k := 1) (by omega) (by omega)]
    · rw [← Nat.add_div_right _ hn]
      congr 1
      omega

/-- An encoding that is injective on chunks, and gives full slots exactly to full
chunks, stays injective when the encoded chunks are put one after the other. -/
theorem flatMap_chunks_injective {n N : ℕ} (hn : 0 < n) {f : List α → List β}
    (hf : Function.Injective f) (hfull : ∀ x, x.length = n → (f x).length = N)
    (hle : ∀ x, x.length ≤ n → (f x).length ≤ N) (hpos : ∀ x, x ≠ [] → f x ≠ []) {c d : List α}
    (h : (chunks n c).flatMap f = (chunks n d).flatMap f) : c = d := by
  have hne : ∀ {l : List α}, l ≠ [] → (chunks n l).flatMap f ≠ [] := by
    intro l hl
    rw [chunks_of_ne_nil hn hl, List.flatMap_cons]
    have ht : l.take n ≠ [] := by
      intro he
      rcases List.take_eq_nil_iff.mp he with h0 | h0
      · omega
      · exact hl h0
    exact fun he => hpos _ ht (List.append_eq_nil_iff.mp he).1
  induction c using chunk_induction hn generalizing d with
  | nil =>
    by_contra hd
    exact hne (Ne.symm hd) h.symm
  | step c hc ih =>
    by_cases hd : d = []
    · subst hd
      exact absurd h (hne hc)
    rw [chunks_of_ne_nil hn hc, chunks_of_ne_nil hn hd, List.flatMap_cons, List.flatMap_cons] at h
    -- the first slots have one length: a slot is full as soon as anything follows it
    have hlen : (f (c.take n)).length = (f (d.take n)).length := by
      have hslot : ∀ l : List α, (f (l.take n)).length = N ∨
          ((chunks n (l.drop n)).flatMap f = [] ∧ (f (l.take n)).length ≤ N) := by
        intro l
        by_cases hlt : l.length < n
        · right
          rw [List.drop_of_length_le hlt.le]
          exact ⟨rfl,hle _ (by rw [List.length_take]; omega)⟩
        · exact .inl (hfull _ (by rw [List.length_take]; omega))
      have htot := congrArg List.length h
      rw [List.length_append, List.length_append] at htot
      rcases hslot c with h1 | ⟨h1,h1'⟩ <;> rcases hslot d with h2 | ⟨h2,h2'⟩
      · omega
      · rw [h2, List.length_nil] at htot
        omega
      · rw [h1, List.length_nil] at htot
        omega
      · rw [h1, h2] at htot
        simpa using htot
    obtain ⟨hhead,htail⟩ := List.append_inj h hlen
    have hdrop := ih htail
    rw [← List.take_append_drop n c, hf hhead, hdrop, List.take_append_drop]

/-- Pieces that are stored in slots of one size stand at multiples of it. -/
theorem slot_flatMap_chunks {n N : ℕ} (hn : 0 < n) {f : List α → List β} (hfull : ∀ x, x.length = n → (f x).length = N)
    (hlast : ∀ x, x.length < n → (f x).length ≤ N) {i : ℕ} {l : List α} (h : n * i < l.length) :
    (((chunks n l).flatMap f).drop (N * i)).take N = f ((l.drop (n * i)).take n) := by
  induction i generalizing l with
  | zero =>
    have hne : l ≠ [] := by
      rintro rfl
      exact absurd h (Nat.not_lt_zero _)
    rw [Nat.mul_zero, Nat.mul_zero, List.drop_zero, List.drop_zero, chunks_of_ne_nil hn hne, List.flatMap_cons]
    rcases Nat.lt_or_ge l.length n with hshort | hlong
    · rw [List.drop_of_length_le hshort.le, chunks_nil, List.flatMap_nil, List.append_nil,
        List.take_of_length_le hshort.le]
      exact List.take_of_length_le (hlast l hshort)
    · have hlen := hfull (l.take n) (List.length_take_of_le hlong)
      rw [List.take_append_of_le_length hlen.ge]
      exact List.take_of_length_le hlen.le
  | succ i ih =>
    have hne : l ≠ [] := by
      rintro rfl
      exact absurd h (Nat.not_lt_zero _)
    have hsucc : n * (i+1) = n + n * i := by ring
    have hslot : N * (i+1) = N + N * i := by ring
    rw [hsucc] at h
    have hlen := hfull (l.take n) (List.length_take_of_le (by omega))
    have hrest : n * i < (l.drop n).length := by
      rw [List.length_drop]
      omega
    rw [hsucc, hslot, chunks_of_ne_nil hn hne, List.flatMap_cons, ← List.drop_drop, ← List.drop_drop,
      List.drop_left' hlen]
    exact ih hrest

end Bytes
