import AlosHttp.H1.RootWalk

/-! The indexed walk: the reference index of a block holds exactly the starts and name
ends of its field lines, so visiting the candidate starts folds the same lines. -/
namespace AlosHttp.H1
open AlosHttp.Core Data List

theorem has_word (words : Bitmap) (i k : ℕ) (hk : k < 64) : words.has (64 * i + k) = (words i).getLsbD k := by
  rw [Bitmap.has, show (64 * i + k) / 64 = i by omega, show (64 * i + k) % 64 = k by omega]

theorem h1NextBitLoop_eq {words : Bitmap} {chunks fuel i : ℕ} {w : BitVec 64} {start : ℕ}
    (hi : i < chunks) (hf : chunks ≤ i + fuel) (hs : 64 * i ≤ start ∧ start < 64 * i + 64)
    (hw : ∀ k < 64, w.getLsbD k = (decide (start ≤ 64 * i + k) && (words i).getLsbD k)) :
    h1NextBitLoop words chunks fuel i w = firstFrom words.has start (64 * chunks) := by
  induction fuel generalizing i w start with
  | zero => omega
  | succ fuel ih =>
    rw [h1NextBitLoop]
    by_cases h0 : w = 0
    · have hnone : firstFrom words.has start (64 * i + 64) = none := by
        rw [firstFrom_eq_none]
        intro p hp hlt
        obtain ⟨k, rfl⟩ : ∃ k, p = 64 * i + k := ⟨p - 64 * i, by omega⟩
        have hk := hw k (by omega)
        rw [h0, decide_eq_true hp, Bool.true_and] at hk
        rw [has_word words i k (by omega), ← hk]
        simp
      rw [if_pos h0, firstFrom_split (by omega) (show 64 * i + 64 ≤ 64 * chunks by omega), hnone,
        Option.none_or]
      split_ifs with hlast
      · symm
        rw [firstFrom_eq_none]
        intro p hp hlt
        omega
      refine ih (by omega) (by omega) (by omega) ?_
      intro k hk
      rw [decide_eq_true (by omega), Bool.true_and]
    obtain ⟨hlt, hbit, hlow⟩ := trailingZeros_spec h0
    have hb := hw _ hlt
    rw [hbit] at hb
    symm at hb
    rw [Bool.and_eq_true, decide_eq_true_eq] at hb
    rw [if_neg h0]
    symm
    rw [firstFrom_eq_some]
    refine ⟨hb.1, by omega, by rw [has_word words i _ hlt]; exact hb.2, ?_⟩
    intro p hp _
    obtain ⟨k, rfl⟩ : ∃ k, p = 64 * i + k := ⟨p - 64 * i, by omega⟩
    have hk := hw k (by omega)
    rw [hlow k (by omega), decide_eq_true hp, Bool.true_and] at hk
    rw [has_word words i k (by omega), ← hk]

theorem h1NextBit_eq (words : Bitmap) (start chunks : ℕ) :
    h1NextBit words start chunks = firstFrom words.has start (64 * chunks) := by
  unfold h1NextBit
  dsimp only
  split_ifs with hge
  · symm
    rw [firstFrom_eq_none]
    intro p _ _
    omega
  refine h1NextBitLoop_eq (by omega) (by omega) (by omega) ?_
  intro k _
  rw [BitVec.getLsbD_and, BitVec.getLsbD_shiftLeft, BitVec.getLsbD_allOnes, Bool.and_comm]
  congr 1
  rw [Bool.eq_iff_iff]
  simp
  omega

def lineStarts (pos : ℕ) : List FieldLine → List ℕ
  | [] => []
  | f :: fs => pos :: lineStarts (pos + f.bytes.length) fs

def nameEnds (pos : ℕ) : List FieldLine → List ℕ
  | [] => []
  | f :: fs => (pos + f.name.length) :: nameEnds (pos + f.bytes.length) fs

/-- A line whose name starts with a letter of the names that matter. -/
def isCandidate (f : FieldLine) : Bool := f.name.head?.any h1BlockCandidateLetters.contains

def candStarts (pos : ℕ) : List FieldLine → List ℕ
  | [] => []
  | f :: fs =>
    if isCandidate f then pos :: candStarts (pos + f.bytes.length) fs
    else candStarts (pos + f.bytes.length) fs

theorem mem_lineStarts {pos q : ℕ} {fs : List FieldLine} (h : q ∈ lineStarts pos fs) :
    pos ≤ q ∧ q + 4 ≤ pos + (block fs).length := by
  induction fs generalizing pos with
  | nil => simp [lineStarts] at h
  | cons f fs ih =>
    have hl := f.bytes_length
    have hn := f.name_length_pos
    rw [block_cons, length_append]
    rcases mem_cons.mp h with rfl | h
    · omega
    have := ih h
    omega

theorem mem_nameEnds {pos q : ℕ} {fs : List FieldLine} (h : q ∈ nameEnds pos fs) :
    pos ≤ q ∧ q < pos + (block fs).length := by
  induction fs generalizing pos with
  | nil => simp [nameEnds] at h
  | cons f fs ih =>
    have hl := f.bytes_length
    rw [block_cons, length_append]
    rcases mem_cons.mp h with rfl | h
    · omega
    have := ih h
    omega

variable (pos : ℕ)

theorem lineStarts_append (fs gs : List FieldLine) :
    lineStarts pos (fs ++ gs) = lineStarts pos fs ++ lineStarts (pos + (block fs).length) gs := by
  induction fs generalizing pos with
  | nil => simp [lineStarts]
  | cons f fs ih =>
    rw [cons_append, lineStarts, lineStarts, ih, block_cons, length_append, add_assoc]
    rfl

theorem nameEnds_append (fs gs : List FieldLine) :
    nameEnds pos (fs ++ gs) = nameEnds pos fs ++ nameEnds (pos + (block fs).length) gs := by
  induction fs generalizing pos with
  | nil => simp [nameEnds]
  | cons f fs ih =>
    rw [cons_append, nameEnds, nameEnds, ih, block_cons, length_append, add_assoc]
    rfl

theorem lineStarts_gaps (fs : List FieldLine) : (lineStarts pos fs).Pairwise (fun a b => a + 4 ≤ b) := by
  induction fs generalizing pos with
  | nil => exact List.Pairwise.nil
  | cons f fs ih =>
    have hl := f.bytes_length
    have hn := f.name_length_pos
    rw [lineStarts, pairwise_cons]
    refine ⟨fun q hq => ?_, ih _⟩
    have := mem_lineStarts hq
    omega

theorem length_lineStarts (fs : List FieldLine) : (lineStarts pos fs).length = fs.length := by
  induction fs generalizing pos with
  | nil => rfl
  | cons f fs ih => rw [lineStarts, length_cons, ih, length_cons]

theorem candStarts_sublist (fs : List FieldLine) : (candStarts pos fs).Sublist (lineStarts pos fs) := by
  induction fs generalizing pos with
  | nil => exact List.Sublist.refl _
  | cons f fs ih =>
    rw [candStarts, lineStarts]
    split_ifs
    · exact (ih _).cons_cons _
    · exact (ih _).cons _

/-- The index holds the lines of a block placed at `pos`, besides what it held before. -/
structure Indexes (fs : List FieldLine) (pos : ℕ) (out out' : H1BlockIndexOut) : Prop where
  starts : ∀ p, out'.starts.has p = true ↔ out.starts.has p = true ∨ p ∈ lineStarts pos fs
  ends : ∀ p, out'.ends.has p = true ↔ out.ends.has p = true ∨ p ∈ nameEnds pos fs
  cands : ∀ p, out'.cands.has p = true ↔ out.cands.has p = true ∨ p ∈ candStarts pos fs

theorem refLoop_some {blk : Bytes} {fuel pos : ℕ} {out out' : H1BlockIndexOut}
    (h : h1BlockIndexRefLoop blk fuel pos out = some out') (hf : blk.length ≤ pos + fuel) :
    ∃ fs : List FieldLine, blk.drop pos = block fs ∧ Indexes fs pos out out' := by
  induction fuel generalizing pos out with
  | zero =>
    rw [h1BlockIndexRefLoop, Option.some.injEq] at h
    subst h
    refine ⟨[], ?_, ⟨by simp [lineStarts], by simp [nameEnds], by simp [candStarts]⟩⟩
    rw [drop_eq_nil_of_le (by omega)]
    rfl
  | succ fuel ih =>
    rw [h1BlockIndexRefLoop] at h
    split_ifs at h with hlt
    · dsimp only at h
      split at h
      · rename_i e hclass
        by_cases hcolon : validH1Colon ((blk.drop pos).take (e + 1)) (firstNonTokenByte (blk.drop pos)) = true
        · obtain ⟨f, _, hp, hname, _⟩ := fieldLine_of_scan hclass hcolon
          have hl := f.bytes_length
          have ht := f.text_length
          have hnext : pos + (e + 1) + 2 = pos + f.bytes.length := by omega
          have hhead : blk[pos]?.any h1BlockCandidateLetters.contains = isCandidate f := by
            have hne := f.name_ne
            rw [isCandidate, ← head?_drop, hp, FieldLine.bytes, FieldLine.text]
            cases hn : f.name with
            | nil => exact absurd hn hne
            | cons c t => rfl
          rw [hcolon, hnext, hname, Option.getD_some, hhead] at h
          obtain ⟨fs, hd, hi⟩ := ih h (by omega)
          refine ⟨f :: fs, ?_, ?_, ?_, ?_⟩
          · rw [drop_add_append hp] at hd
            rw [hp, hd, block_cons]
          · intro p
            rw [hi.starts, Bitmap.has_set, lineStarts, mem_cons, Bool.or_eq_true, decide_eq_true_eq, or_assoc]
          · intro p
            rw [hi.ends, Bitmap.has_set, nameEnds, mem_cons, Bool.or_eq_true, decide_eq_true_eq, or_assoc]
          intro p
          rw [hi.cands, candStarts]
          split_ifs
          · rw [Bitmap.has_set, mem_cons, Bool.or_eq_true, decide_eq_true_eq, or_assoc]
          · rfl
        rw [if_pos (by simpa using hcolon)] at h
        simp at h
      · simp at h
    rw [Option.some.injEq] at h
    subst h
    refine ⟨[], ?_, ⟨by simp [lineStarts], by simp [nameEnds], by simp [candStarts]⟩⟩
    rw [drop_eq_nil_of_le (by omega)]
    rfl

section walk
variable {idx : H1BlockIndexOut} {all : List FieldLine}

section
variable (hi : Indexes all 0 {} idx)
include hi

theorem whole_starts (p : ℕ) : idx.starts.has p = true ↔ p ∈ lineStarts 0 all := by
  rw [hi.starts]
  simp

theorem whole_ends (p : ℕ) : idx.ends.has p = true ↔ p ∈ nameEnds 0 all := by
  rw [hi.ends]
  simp

variable {f : FieldLine} {fs gs : List FieldLine}

omit hi in
theorem length_block_split (hall : all = fs ++ f :: gs) :
    (block all).length = (block fs).length + f.bytes.length + (block gs).length := by
  rw [hall]
  simp [block]
  omega

theorem nextEnd_eq (hall : all = fs ++ f :: gs) {hiPos : ℕ} (hN : (block all).length ≤ hiPos) :
    firstFrom idx.ends.has (block fs).length hiPos = some ((block fs).length + f.name.length) := by
  have hl := f.bytes_length
  have hsplit : nameEnds 0 all = nameEnds 0 fs ++ ((block fs).length + f.name.length) ::
      nameEnds ((block fs).length + f.bytes.length) gs := by
    rw [hall, nameEnds_append, zero_add]
    rfl
  have hlen := length_block_split hall
  rw [firstFrom_eq_some]
  refine ⟨by omega, by omega, ?_, ?_⟩
  · rw [whole_ends hi, hsplit]
    simp
  intro p _ _
  by_contra hne
  rw [Bool.not_eq_false, whole_ends hi, hsplit, mem_append, mem_cons] at hne
  rcases hne with h | h | h
  · have := mem_nameEnds h
    omega
  · omega
  have := mem_nameEnds h
  omega

theorem nextStart_eq (hall : all = fs ++ f :: gs) {hiPos : ℕ} (hN : (block all).length ≤ hiPos) :
    firstFrom idx.starts.has ((block fs).length + f.name.length) hiPos =
      if gs = [] then none else some ((block fs).length + f.bytes.length) := by
  have hl := f.bytes_length
  have hn := f.name_length_pos
  have hsplit : lineStarts 0 all = lineStarts 0 fs ++ (block fs).length ::
      lineStarts ((block fs).length + f.bytes.length) gs := by
    rw [hall, lineStarts_append, zero_add]
    rfl
  have hlen := length_block_split hall
  have hmem : ∀ p, (block fs).length + f.name.length ≤ p → idx.starts.has p = true →
      p ∈ lineStarts ((block fs).length + f.bytes.length) gs := by
    intro p hp hh
    rw [whole_starts hi, hsplit, mem_append, mem_cons] at hh
    rcases hh with h | h | h
    · have := mem_lineStarts h
      omega
    · omega
    · exact h
  rcases gs with _ | ⟨g, gs⟩
  · rw [if_pos rfl, firstFrom_eq_none]
    intro p hp _
    by_contra hne
    rw [Bool.not_eq_false] at hne
    simpa [lineStarts] using hmem p hp hne
  have hg := g.bytes_length
  rw [block_cons, length_append] at hlen
  rw [if_neg (by simp), firstFrom_eq_some]
  refine ⟨by omega, by omega, ?_, ?_⟩
  · rw [whole_starts hi, hsplit]
    simp [lineStarts]
  intro p hp _
  by_contra hne
  rw [Bool.not_eq_false] at hne
  have := mem_lineStarts (hmem p hp hne)
  omega

theorem indexedField_eq (hall : all = fs ++ f :: gs) {chunks : ℕ} (hN : (block all).length ≤ 64 * chunks)
    (st : RootFastState) :
    indexedField idx (block all) chunks st (block fs).length = rootStep st f := by
  have hl := f.bytes_length
  have ht := f.text_length
  have hblk : block all = block fs ++ (f.name ++ (colon :: (f.raw ++ (crlf ++ block gs)))) := by
    rw [hall]
    simp [block, FieldLine.bytes, FieldLine.text]
  have hlen := length_block_split hall
  have hend : (h1NextBit idx.starts ((block fs).length + f.name.length) chunks).getD
      (block all).length - 2 = (block fs).length + f.text.length := by
    rw [h1NextBit_eq, nextStart_eq hi hall hN]
    rcases gs with _ | ⟨g, gs⟩
    · rw [block_nil, length_nil] at hlen
      rw [if_pos rfl, Option.getD_none]
      omega
    rw [if_neg (by simp), Option.getD_some]
    omega
  unfold indexedField
  dsimp only
  rw [h1NextBit_eq, nextEnd_eq hi hall hN, Option.getD_some, hend]
  have hname : ((block all).take ((block fs).length + f.name.length)).drop (block fs).length = f.name := by
    rw [drop_take, hblk, drop_left, Nat.add_sub_cancel_left, take_left]
  have hvalue : ((block all).take ((block fs).length + f.text.length)).drop
      ((block fs).length + f.name.length + 1) = f.raw := by
    rw [drop_take, hblk, show (block fs).length + f.name.length + 1 =
      (block fs).length + (f.name.length + 1) by omega, ← drop_drop, drop_left,
      ← drop_drop, drop_left, drop_one, tail_cons,
      show (block fs).length + f.text.length - ((block fs).length + (f.name.length + 1)) =
        f.raw.length by omega, take_left]
  rw [hname, hvalue]
  exact field_eq_rootStep st f rfl (by simp)

end

theorem candidate_letter {c : UInt8}
    (h : asciiLower c = 104 ∨ asciiLower c = 101 ∨ asciiLower c = 99 ∨ asciiLower c = 116) :
    h1BlockCandidateLetters.contains c = true := by
  revert h
  exact forall_byte (P := fun c => (asciiLower c = 104 ∨ asciiLower c = 101 ∨ asciiLower c = 99 ∨
    asciiLower c = 116) → h1BlockCandidateLetters.contains c = true) (by decide +kernel) c

theorem candidate_of_fold {lit : Bytes} {d : UInt8}
    (h : equalFoldASCII f.name lit = true) (hd : (toLowerASCII lit).head? = some d)
    (hlet : d = 104 ∨ d = 101 ∨ d = 99 ∨ d = 116) : isCandidate f = true := by
  rw [← (equalFoldASCII_iff _ _).mp h, toLowerASCII, head?_map] at hd
  obtain ⟨c, hc, hcd⟩ := Option.map_eq_some_iff.mp hd
  rw [isCandidate, hc]
  exact candidate_letter (by rw [hcd]; exact hlet)

theorem rootStep_other (st : RootFastState) (h : isCandidate f = false) : rootStep st f = some st := by
  have hkind : nameKind f.name = .other := by
    have hnot : ∀ {d lit}, equalFoldASCII f.name lit = true → (toLowerASCII lit).head? = some d →
        (d = 104 ∨ d = 101 ∨ d = 99 ∨ d = 116) → False := by
      intro d lit hf hd hlet
      rw [candidate_of_fold hf hd hlet] at h
      cases h
    rcases nameKind_cases f.name with ⟨_, h1⟩ | ⟨_, h1⟩ | ⟨_, h1⟩ | ⟨_, h1⟩ | ⟨_, h1⟩ | ⟨hk, _⟩
    iterate 5 exact (hnot h1 rfl (by decide)).elim
    exact hk
  rw [rootStep, field_kind, hkind]

theorem foldlM_candStarts (hi : Indexes all 0 {} idx) {chunks : ℕ}
    (hN : (block all).length ≤ 64 * chunks) (hall : all = fs ++ gs)
    (st : RootFastState) :
    (candStarts (block fs).length gs).foldlM (indexedField idx (block all) chunks) st = gs.foldlM rootStep st := by
  induction gs generalizing fs st with
  | nil => rfl
  | cons f gs ih =>
    have hblk : (block (fs ++ [f])).length = (block fs).length + f.bytes.length := by
      simp [block]
    have hrest : ∀ st, (candStarts ((block fs).length + f.bytes.length) gs).foldlM
        (indexedField idx (block all) chunks) st = gs.foldlM rootStep st := by
      intro st
      rw [← hblk]
      exact ih (by rw [hall]; simp) st
    rw [candStarts, foldlM_cons]
    split_ifs with hc
    · rw [foldlM_cons, indexedField_eq hi hall hN]
      congr 1
      funext st
      exact hrest st
    rw [rootStep_other st (by simpa using hc)]
    exact hrest st

theorem lineStarts_gap {pos a b : ℕ} (ha : a ∈ lineStarts pos fs)
    (hb : b ∈ lineStarts pos fs) (hlt : a < b) : a + 4 ≤ b := by
  induction fs generalizing pos with
  | nil => simp [lineStarts] at ha
  | cons f fs ih =>
    have hl := f.bytes_length
    have hn := f.name_length_pos
    rcases mem_cons.mp ha with rfl | ha
    · rcases mem_cons.mp hb with rfl | hb
      · omega
      have := mem_lineStarts hb
      omega
    rcases mem_cons.mp hb with rfl | hb
    · have := mem_lineStarts ha
      omega
    · exact ih ha hb

theorem startsWithin_le (hi : Indexes all 0 {} idx) {chunks maxCount : ℕ} (hN : (block all).length ≤ 64 * chunks)
    (h : h1BlockStartsWithin idx chunks maxCount = true) : all.length ≤ maxCount := by
  have hword : ∀ ci, (setBits (idx.starts ci)).length ≤ 16 := by
    intro ci
    have hmem : ∀ x ∈ setBits (idx.starts ci), 64 * ci + x ∈ lineStarts 0 all := by
      intro x hx
      obtain ⟨hx64, hbit⟩ := mem_setBits.mp hx
      rw [← whole_starts hi, has_word _ _ _ hx64]
      exact hbit
    have hgap : (setBits (idx.starts ci)).Pairwise (fun a b => a + 4 ≤ b) := by
      refine (setBits_sorted (idx.starts ci)).imp_of_mem fun ha hb hlt => ?_
      have := lineStarts_gap (hmem _ ha) (hmem _ hb) (by omega)
      omega
    have := length_le_of_gaps hgap (fun x hx => ⟨Nat.zero_le _, (mem_setBits.mp hx).1⟩) (by omega)
    omega
  have hbound : ∀ n ci, (idx.starts.positions (ci + n)).length ≤ (idx.starts.positions ci).length + n * 16 := by
    intro n ci
    induction n with
    | zero => simp
    | succ n ih =>
      have := hword (ci + n)
      rw [← add_assoc, Bitmap.positions_succ, length_append, length_map]
      omega
  have hloop : ∀ fuel ci, ci + fuel = chunks →
      h1BlockStartsWithinLoop idx chunks maxCount fuel ci (idx.starts.positions ci).length = true →
      (idx.starts.positions chunks).length ≤ maxCount := by
    intro fuel
    induction fuel with
    | zero =>
      intro ci hci hl
      obtain rfl : ci = chunks := by omega
      simpa [h1BlockStartsWithinLoop] using hl
    | succ fuel ih =>
      intro ci hci hl
      have hcount : (idx.starts.positions ci).length + (setBits (idx.starts ci)).length =
          (idx.starts.positions (ci + 1)).length := by
        rw [Bitmap.positions_succ, length_append, length_map]
      rw [h1BlockStartsWithinLoop, if_pos (by omega)] at hl
      dsimp only at hl
      rw [hcount] at hl
      split_ifs at hl with hfit
      · have := hbound (chunks - 1 - ci) (ci + 1)
        rw [show ci + 1 + (chunks - 1 - ci) = chunks by omega] at this
        exact this.trans hfit
      · exact ih (ci + 1) (by omega) hl
  have hpos : idx.starts.positions chunks = lineStarts 0 all := by
    refine Bitmap.positions_eq ((lineStarts_gaps 0 all).imp fun h => by omega) fun p => ?_
    rw [whole_starts hi]
    refine ⟨fun hp => ⟨?_, hp⟩, fun hp => hp.2⟩
    have := mem_lineStarts hp
    omega
  have := hloop chunks 0 (by omega) h
  rwa [hpos, length_lineStarts] at this

end walk

theorem four_mul_length_le_block (fs : List FieldLine) : 4 * fs.length ≤ (block fs).length := by
  induction fs with
  | nil => simp
  | cons f fs ih =>
    have hl := f.bytes_length
    have hn := f.name_length_pos
    rw [block_cons, length_append, length_cons]
    omega

variable {st st' : RootFastState}
open Option

theorem rootStep_maxCount {f : FieldLine} (h : rootStep st f = some st') : st'.maxCount = st.maxCount := by
  rw [rootStep, field_kind] at h
  split at h
  · split_ifs at h
    rw [← some.inj h]
  · split_ifs at h <;> rw [← some.inj h]
  · rw [← some.inj h]
  · simp at h

theorem foldlM_rootStep_maxCount {fs : List FieldLine}
    (h : fs.foldlM rootStep st = some st') : st'.maxCount = st.maxCount := by
  induction fs generalizing st with
  | nil =>
    obtain rfl : st = st' := by simpa using h
    rfl
  | cons f fs ih =>
    rw [foldlM_cons] at h
    obtain ⟨_, h1, h2⟩ := bind_eq_some_iff.mp h
    rw [ih h2, rootStep_maxCount h1]

theorem indexedFields_some {avx2 : Bool} {vec : VectorIndex} (hvec : vec.MeetsReference)
  {blk : Bytes} (h : indexedFields avx2 vec st blk = some (some st')) :
    ∃ fs : List FieldLine, blk = block fs ∧ fs.foldlM rootStep st = some st' ∧ fs.length ≤ st'.maxCount := by
  unfold indexedFields h1BlockIndex at h
  by_cases hready : (!avx2 || !indexable blk) = true
  · simp [hready] at h
  have hidx : indexable blk = true := by
    simp only [Bool.or_eq_true, not_or] at hready
    simpa using hready.2
  rw [if_neg hready, hvec blk hidx] at h
  rcases hr : h1BlockIndexRef blk with _ | idx
  · simp [hr] at h
  obtain ⟨fs, hblk, hi⟩ := refLoop_some hr (by omega)
  rw [drop_zero] at hblk
  subst hblk
  have hN : (block fs).length ≤ 64 * (((block fs).length + 63) / 64) := by omega
  have hcand : idx.cands.positions (((block fs).length + 63) / 64) = candStarts 0 fs := by
    refine Bitmap.positions_eq (((lineStarts_gaps 0 fs).sublist (candStarts_sublist 0 fs)).imp
      fun h => by omega) fun p => ?_
    rw [hi.cands]
    refine ⟨fun hp => ⟨?_, Or.inr hp⟩, fun hp => by simpa using hp.2⟩
    have := mem_lineStarts ((candStarts_sublist 0 fs).mem hp)
    omega
  have hwalk := foldlM_candStarts hi hN (nil_append fs).symm st
  rw [block_nil, length_nil] at hwalk
  rw [hr] at h
  dsimp only at h
  rw [foldlM_positions (indexedField idx (block fs) (((block fs).length + 63) / 64)), hcand, hwalk,
    some.injEq, bind_eq_some_iff] at h
  obtain ⟨_, hfold, hcount⟩ := h
  split_ifs at hcount with hc
  obtain rfl := some.inj hcount
  refine ⟨fs, rfl, hfold, ?_⟩
  rw [Bool.or_eq_true, decide_eq_true_eq] at hc
  rcases hc with hc | hc
  · have := four_mul_length_le_block fs
    rw [minH1FieldLineBytes] at hc
    omega
  · exact startsWithin_le hi hN hc

theorem fields_some {avx2 : Bool} {vec : VectorIndex} (hvec : vec.MeetsReference)
  {blk : Bytes} (h : fields avx2 vec st blk = some st') :
    ∃ fs : List FieldLine, blk = block fs ∧ fs.foldlM rootStep st = some st' ∧ fs.length ≤ st'.maxCount := by
  unfold fields at h
  split_ifs at h
  · rcases hi : indexedFields avx2 vec st blk with _ | verdict
    · rw [hi] at h
      exact lineFields_some h
    rw [hi] at h
    dsimp only at h
    rw [h] at hi
    exact indexedFields_some hvec hi
  · exact lineFields_some h

end AlosHttp.H1
