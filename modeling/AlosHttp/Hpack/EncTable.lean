import AlosHttp.Hpack.Encoder

/-! The encoder's table of `h2_enctable.go`. The peer's table is a reference table of RFC 7541
that holds at least the encoder's entries, in the same places, and every field that the encoder
writes keeps it so. -/
namespace AlosHttp.Hpack
open List Data Rfc7541 AlosHttp.Core

def h2EncTableMaxSize : ℕ := 4096
def h2EncIndexMaxValue : ℕ := 128
def hpackDynamicIndexMin : ℕ := hpackStaticTable.length

def hpackEncEntrySize (name value : Bytes) : ℕ := name.length + value.length + hpackEntryOverhead

/-- Entries are in order of age, oldest first. `gen` counts the changes of the table; the
source keeps the count in 32 bits. -/
structure HpackEncTable where
  entries : List Field := []
  size : ℕ := 0
  maxSize : ℕ := 0
  pendingUpdate : Bool := false
  gen : ℕ := 0
  deriving DecidableEq

namespace HpackEncTable

def reset (t : HpackEncTable) : HpackEncTable where
  maxSize := h2EncTableMaxSize
  gen := t.gen + 1

def evictLoop (limit : ℕ) : List Field → ℕ → List Field × ℕ
  | [], size => ([], size)
  | f :: entries, size =>
    if size > limit then evictLoop limit entries (size - hpackEncEntrySize f.1 f.2)
    else (f :: entries, size)

def evictTo (t : HpackEncTable) (limit : ℕ) : HpackEncTable :=
  let (entries, size) := evictLoop limit t.entries t.size
  let drop := t.entries.length - entries.length
  if drop = 0 then { t with size := size }
  else { t with entries, size, gen := t.gen + 1 }

def setPeerLimit (t : HpackEncTable) (limit : UInt32) : HpackEncTable :=
  let newMax := min limit.toNat h2EncTableMaxSize
  if newMax = t.maxSize then t
  else
    let t := { t with maxSize := newMax }.evictTo newMax
    { t with pendingUpdate := true, gen := t.gen + 1 }

def find (t : HpackEncTable) (name value : Bytes) : ℕ :=
  match t.entries.reverse.findIdx? (· == (name, value)) with
  | some i => hpackDynamicIndexMin + i
  | none => 0

def add (t : HpackEncTable) (name value : Bytes) : HpackEncTable :=
  let size := hpackEncEntrySize name value
  if size > t.maxSize then t.evictTo 0
  else
    let t := t.evictTo (t.maxSize - size)
    { t with entries := t.entries ++ [(name, value)], size := t.size + size, gen := t.gen + 1 }

def beginBlock (t : HpackEncTable) : Bytes × HpackEncTable :=
  if t.pendingUpdate then
    (encodeInt 0x20 5 (UInt64.ofNat t.maxSize), { t with pendingUpdate := false })
  else ([], t)

/-- What is appended, and the table after it. `cache` is the shared cache as the call finds
it; what it stores there changes no later encoding. -/
def encodeField (cache : HpackFieldCache) (t : HpackEncTable) (staticNameIdx : ℕ)
    (lowerName value : Bytes) : Bytes × HpackEncTable :=
  let idx := t.find lowerName value
  if idx > 0 then (encodeIndexed (UInt64.ofNat idx), t)
  else if value.length > h2EncIndexMaxValue ∨ hpackEncEntrySize lowerName value > t.maxSize then
    if staticNameIdx > 0 then ((encodeStaticFieldCached cache staticNameIdx value).1, t)
    else (0x00 :: (encodeString lowerName ++ encodeString value), t)
  else if staticNameIdx > 0 then
    (encodeInt 0x40 6 (UInt64.ofNat staticNameIdx) ++ encodeString value, t.add lowerName value)
  else (0x40 :: (encodeString lowerName ++ encodeString value), t.add lowerName value)

end HpackEncTable

theorem hpackEncEntrySize_eq (f : Field) : hpackEncEntrySize f.1 f.2 = entrySize f := rfl

namespace HpackEncTable
variable (limit : ℕ) (entries : List Field)

theorem evictLoop_eq : evictLoop limit entries (Rfc7541.size entries) =
      (dropOldest limit entries, Rfc7541.size (dropOldest limit entries)) := by
  induction entries with
  | nil => rfl
  | cons f entries ih =>
    rw [evictLoop, dropOldest]
    split_ifs with hbig
    · rw [hpackEncEntrySize_eq, size_cons, Nat.add_sub_cancel_left, ih]
    · rfl

theorem dropOldest_isSuffix : dropOldest limit entries <:+ entries := by
  induction entries with
  | nil => exact suffix_refl _
  | cons f entries ih =>
    rw [dropOldest]
    split_ifs
    · exact ih.trans (suffix_cons f entries)
    · exact suffix_refl _

structure Inv (t : HpackEncTable) : Prop where
  size_eq : t.size = Rfc7541.size t.entries
  fits : t.size ≤ t.maxSize
  max_le : t.maxSize ≤ h2EncTableMaxSize

theorem evictTo_frame (t : HpackEncTable) (limit : ℕ) :
    (t.evictTo limit).maxSize = t.maxSize ∧ (t.evictTo limit).pendingUpdate = t.pendingUpdate := by
  unfold evictTo
  dsimp only
  split_ifs <;> exact ⟨rfl, rfl⟩

theorem add_pendingUpdate (t : HpackEncTable) (name value : Bytes) :
    (t.add name value).pendingUpdate = t.pendingUpdate := by
  unfold add
  dsimp only
  split_ifs
  all_goals exact (t.evictTo_frame _).2

variable {t : HpackEncTable}

theorem evictTo_spec (hsize : t.size = Rfc7541.size t.entries) (limit : ℕ) :
    (t.evictTo limit).entries = dropOldest limit t.entries ∧
      (t.evictTo limit).size = Rfc7541.size (t.evictTo limit).entries := by
  unfold evictTo
  rw [hsize, evictLoop_eq]
  dsimp only
  have hsuffix := dropOldest_isSuffix limit t.entries
  split_ifs with hdrop
  · have heq := hsuffix.eq_of_length_le (by omega)
    rw [heq]
    exact ⟨rfl, rfl⟩
  · exact ⟨rfl, rfl⟩

theorem size_dropOldest_le : Rfc7541.size (dropOldest limit entries) ≤ limit := by
  have h := size_evict_le limit entries.reverse
  unfold evict at h
  rw [reverse_reverse, size_reverse] at h
  exact h

/-- The peer's table: its newest entries are the encoder's, and unless a size update is due it
has at least the encoder's room. -/
structure Mirrors (t : HpackEncTable) (r : Table) : Prop extends t.Inv where
  front : t.entries.reverse <+: r.entries
  room : t.pendingUpdate = false → t.maxSize ≤ r.maxSize
  peer_le : r.maxSize ≤ h2EncTableMaxSize

theorem mirrors_reset (t : HpackEncTable) : t.reset.Mirrors (Table.empty h2EncTableMaxSize) where
  size_eq := rfl
  fits := Nat.zero_le _
  max_le := le_rfl
  front := nil_prefix
  room _ := le_rfl
  peer_le := le_rfl

theorem Mirrors.setPeerLimit {r : Table} (h : t.Mirrors r) (limit : UInt32) : (t.setPeerLimit limit).Mirrors r := by
  unfold HpackEncTable.setPeerLimit
  dsimp only
  split_ifs with hsame
  · exact h
  obtain ⟨hent, hsize⟩ := evictTo_spec (t := { t with maxSize := min limit.toNat h2EncTableMaxSize }) h.size_eq
      (min limit.toNat h2EncTableMaxSize)
  obtain ⟨hmax, -⟩ := evictTo_frame { t with maxSize := min limit.toNat h2EncTableMaxSize }
    (min limit.toNat h2EncTableMaxSize)
  generalize evictTo { t with maxSize := min limit.toNat h2EncTableMaxSize }
    (min limit.toNat h2EncTableMaxSize) = u at hent hsize hmax ⊢
  refine ⟨⟨hsize, ?_, ?_⟩, ?_, fun hno => (by cases hno), h.peer_le⟩
  · rw [hsize, hent, hmax]
    exact size_dropOldest_le _ _
  · rw [hmax]
    exact min_le_right _ _
  rw [hent]
  exact (List.reverse_prefix.mpr (dropOldest_isSuffix _ _)).trans h.front

theorem Mirrors.add {r : Table} (h : t.Mirrors r) (hp : t.pendingUpdate = false)
    {f : Field} (hfit : entrySize f ≤ t.maxSize) : (t.add f.1 f.2).Mirrors (r.insert f) := by
  have hroom := h.room hp
  unfold HpackEncTable.add
  rw [hpackEncEntrySize_eq]
  rw [if_neg (not_lt.mpr hfit)]
  obtain ⟨hent, hsize⟩ := evictTo_spec h.size_eq (t.maxSize - entrySize f)
  obtain ⟨hmax, -⟩ := t.evictTo_frame (t.maxSize - entrySize f)
  generalize t.evictTo (t.maxSize - entrySize f) = u at hent hsize hmax ⊢
  have hkept := size_dropOldest_le (t.maxSize - entrySize f) t.entries
  have hfront : u.entries.reverse <+: r.entries := by
    rw [hent]
    exact (List.reverse_prefix.mpr (dropOldest_isSuffix _ _)).trans h.front
  refine ⟨⟨?_, ?_, ?_⟩, ?_, ?_, h.peer_le⟩
  · show u.size + entrySize f = Rfc7541.size (u.entries ++ [(f.1, f.2)])
    rw [size_append, size_cons, size_nil, hsize]
    rfl
  · show u.size + entrySize f ≤ u.maxSize
    rw [hsize, hent, hmax]
    omega
  · rw [hmax]
    exact h.max_le
  · unfold Table.insert
    dsimp only
    rw [if_pos (hfit.trans hroom), reverse_append, reverse_singleton, singleton_append, prefix_cons_inj]
    apply prefix_evict hfront
    rw [size_reverse, hent]
    omega
  intro _
  rw [hmax]
  exact hroom

end HpackEncTable

structure EncodesRep (t : HpackDynTable) (enc : Bytes) (rep : Rep) : Prop where
  ne_nil : enc ≠ []
  read : ∀ limit started rest, (t.readRep limit started (enc ++ rest)).1 = .ok (rep, enc.length)

variable {enc : Bytes} {f : Field}

theorem EncodesField.rep (h : EncodesField enc f) (t : HpackDynTable) : EncodesRep t enc (.field f false) where
  ne_nil := h.ne_nil
  read limit started rest := by rw [h.read]

theorem incremental_flags {low : UInt8} (hlow : low.toNat < 2 ^ (6 : UInt8).toNat) :
    ((0x40 : UInt8) ||| low) &&& 0xc0 = 0x40 :=
  forall_byte (P := fun low => low.toNat < 2 ^ (6 : UInt8).toNat →
    ((0x40 : UInt8) ||| low) &&& 0xc0 = 0x40) (by decide +kernel) low hlow

open UInt64 HpackDynTable

theorem encodesRep_incremental_static (t : HpackDynTable) (idx : ℕ) {value : Bytes}
    (hf : hpackStaticTable[idx]? = some f) (hpos : 0 < idx) (h : EncodesString enc value) :
    EncodesRep t (encodeInt 0x40 6 (ofNat idx) ++ enc) (.field (f.1, value) true) where
  ne_nil := append_ne_nil_of_left_ne_nil (encodeInt_ne_nil _ _ _) _
  read limit started rest := by
    have hflags : FlagsFor 0x40 6 := by decide
    obtain ⟨_, _, hlow, hcons⟩ := encodeInt_cons hflags (ofNat idx)
    rw [readRep_incremental ?_ (readLiteral_static hflags hf hpos h t rest)]
    rw [hcons]
    exact incremental_flags hlow

theorem encodesRep_incremental_literal (t : HpackDynTable) {name value encName encValue : Bytes}
    (hname : EncodesString encName name) (hvalue : EncodesString encValue value) :
    EncodesRep t (0x40 :: (encName ++ encValue)) (.field (name, value) true) where
  ne_nil := cons_ne_nil _ _
  read limit started rest := by
    have hhead : (0x40 :: (encName ++ encValue) ++ rest).headD 0 &&& 0xc0 = 0x40 :=
      show (0x40 : UInt8) &&& 0xc0 = 0x40 by decide
    rw [readRep_incremental hhead (readLiteral_literal (fun _ => rfl) hname hvalue t rest)]

variable {r : Table}

theorem encodesRep_dynamic {t : HpackDynTable} (ht : t.Refines r) {i : ℕ}
    (hf : r.entries[i]? = some f) (hi : i < 2 ^ 32) :
    EncodesRep t (encodeIndexed (ofNat (hpackDynamicIndexMin + i))) (.field f false) where
  ne_nil := encodeInt_ne_nil _ _ _
  read limit started rest := by
    have hflags : FlagsFor 0x80 7 := by decide
    have hmin : hpackDynamicIndexMin = 62 := rfl
    have hlookup : r.lookup (hpackDynamicIndexMin + i) = some f := by
      unfold Table.lookup
      rw [if_neg (by omega), if_neg (by rw [show staticTable.length = 61 from rfl]; omega),
        show staticTable.length = 61 from rfl, hmin, show 62 + i - 61 - 1 = i by omega]
      exact hf
    have hfield := ht.fieldAt (ofNat (hpackDynamicIndexMin + i))
    rw [toNat_ofNat_of_lt (by omega), hlookup] at hfield
    obtain ⟨⟨g, _⟩, hg, rfl⟩ := Option.map_eq_some_iff.mp hfield
    obtain ⟨_, _, hlow, hcons⟩ := encodeInt_cons hflags (ofNat (hpackDynamicIndexMin + i))
    unfold encodeIndexed
    rw [readRep_indexed ?_ (hpackDecodeInt_encode hflags _ rest)
      (fun hz => encodeInt_ne_nil _ _ _ (length_eq_zero_iff.mp hz)) hg]
    rw [hcons]
    exact fun hz => absurd ((high_flag hlow).mp hz) (by decide)

/-- The reference decoder gets to the end of the block, with as much fuel as it has octets. -/
def Decodes (limit : ℕ) (r : Table) (fields : List Field) (data : Bytes) (out : List Field × Table) : Prop :=
  ∀ fuel, data.length ≤ fuel → decodeLoop limit fuel r fields data = some out

theorem decodes_nil (limit : ℕ) (r : Table) (fields : List Field) : Decodes limit r fields [] (fields, r) := by
  intro _ _
  rw [decodeLoop]

theorem Decodes.decodeBlock {limit : ℕ} {data : Bytes} {out : List Field × Table}
    (h : Decodes limit r [] data out) : decodeBlock limit r data = some out := h _ le_rfl

theorem Decodes.cons {limit : ℕ} {t : HpackDynTable} (ht : t.Refines r)
    (hmax : r.maxSize < 2 ^ 64) {fields : List Field} {rest : Bytes} {rep : Rep}
    (hne : enc ≠ [])
    (hread : (t.readRep limit (!fields.isEmpty) (enc ++ rest)).1 = .ok (rep, enc.length))
    {out : List Field × Table}
    (h : Decodes limit (rep.applyTable r) (fields ++ rep.field?.toList) rest out) :
    Decodes limit r fields (enc ++ rest) out := by
  intro fuel hfuel
  obtain ⟨-, hstep, -⟩ := readRep_sound ht hmax hread
  rw [Bool.not_not, drop_left] at hstep
  have hpos := length_pos_iff.mpr hne
  rw [length_append] at hfuel
  obtain ⟨b, _, rfl⟩ := exists_cons_of_ne_nil hne
  obtain ⟨fuel, rfl⟩ := Nat.exists_eq_add_of_lt (show 0 < fuel by omega)
  rw [cons_append] at hstep ⊢
  rw [zero_add, decodeLoop, hstep]
  exact h fuel (by omega)

theorem readRep_sizeUpdate (t : HpackDynTable) {limit n : ℕ} (hn : n < 2 ^ 64) (hlimit : n ≤ limit) (rest : Bytes) :
    (t.readRep limit false (encodeInt 0x20 5 (ofNat n) ++ rest)).1 =
      .ok (.sizeUpdate n, (encodeInt 0x20 5 (ofNat n)).length) := by
  have hflags : FlagsFor 0x20 5 := by decide
  obtain ⟨low, _, hlow, hcons⟩ := encodeInt_cons hflags (ofNat n)
  have hbits := forall_byte (P := fun low => low.toNat < 2 ^ (5 : UInt8).toNat →
      ((0x20 ||| low) &&& 0x80 = 0) ∧ ((0x20 ||| low) &&& 0x40 = 0) ∧ ((0x20 ||| low) &&& 0x20 ≠ 0))
      (by decide +kernel) low hlow
  have hhead : (encodeInt 0x20 5 (ofNat n) ++ rest).headD 0 = 0x20 ||| low := by
    rw [hcons]
    rfl
  unfold readRep
  rw [hhead, if_neg (not_not.mpr hbits.1), if_neg (not_not.mpr hbits.2.1), if_pos hbits.2.2,
    hpackDecodeInt_encode hflags, if_neg Bool.false_ne_true,
    if_neg (fun hz => encodeInt_ne_nil _ _ _ (length_eq_zero_iff.mp hz)),
    toNat_ofNat_of_lt hn, if_neg (not_lt.mpr hlimit)]

namespace HpackEncTable

/-- What the encoder writes on its way from table `t` to table `t'`: whoever mirrors `t` reads
the fields and then mirrors `t'`. -/
def Sends (t t' : HpackEncTable) (bytes : Bytes) (fields : List Field) : Prop :=
  t.pendingUpdate = false → t'.pendingUpdate = false ∧ ∀ r, t.Mirrors r →
    ∃ r', t'.Mirrors r' ∧ ∀ limit acc rest out,
      Decodes limit r' (acc ++ fields) rest out → Decodes limit r acc (bytes ++ rest) out

theorem Sends.refl (t : HpackEncTable) : t.Sends t [] [] := by
  intro hp
  refine ⟨hp, fun r hr => ⟨r, hr, fun limit acc rest out h => ?_⟩⟩
  rw [append_nil] at h
  exact h

theorem Sends.append {t₁ t₂ t₃ : HpackEncTable} {b₁ b₂ : Bytes} {f₁ f₂ : List Field}
    (h₁ : t₁.Sends t₂ b₁ f₁) (h₂ : t₂.Sends t₃ b₂ f₂) : t₁.Sends t₃ (b₁ ++ b₂) (f₁ ++ f₂) := by
  intro hp
  obtain ⟨hp₂, hs₁⟩ := h₁ hp
  obtain ⟨hp₃, hs₂⟩ := h₂ hp₂
  refine ⟨hp₃, fun r hr => ?_⟩
  obtain ⟨r₂, hr₂, hd₁⟩ := hs₁ r hr
  obtain ⟨r₃, hr₃, hd₂⟩ := hs₂ r₂ hr₂
  refine ⟨r₃, hr₃, fun limit acc rest out h => ?_⟩
  rw [append_assoc]
  apply hd₁
  apply hd₂
  rw [append_assoc]
  exact h

variable {t : HpackEncTable}

theorem Mirrors.peer_lt {r : Table} (h : t.Mirrors r) : r.maxSize < 2 ^ 64 := by
  have hle := h.peer_le
  unfold h2EncTableMaxSize at hle
  omega

open HpackDynTable

theorem sends_plain (t : HpackEncTable) {enc : Bytes} {f : Field} (h : EncodesField enc f) : t.Sends t enc [f] := by
  intro hp
  refine ⟨hp, fun r hr => ⟨r, hr, fun limit acc rest out hout => ?_⟩⟩
  obtain ⟨d, hd⟩ := exists_refines r
  exact Decodes.cons hd hr.peer_lt h.ne_nil ((h.rep d).read _ _ _) hout

theorem sends_indexed {enc : Bytes} {f : Field}
    (h : ∀ d, EncodesRep d enc (.field f true)) (hfit : entrySize f ≤ t.maxSize) :
    t.Sends (t.add f.1 f.2) enc [f] := by
  intro hp
  constructor
  · rw [add_pendingUpdate, hp]
  intro r hr
  refine ⟨r.insert f, hr.add hp hfit, fun limit acc rest out hout => ?_⟩
  obtain ⟨d, hd⟩ := exists_refines r
  exact Decodes.cons hd hr.peer_lt (h d).ne_nil ((h d).read _ _ _) hout

theorem find_pos_iff (t : HpackEncTable) (name value : Bytes) : t.find name value > 0 ↔
      ∃ i, t.find name value = hpackDynamicIndexMin + i ∧ t.entries.reverse[i]? = some (name, value) := by
  unfold find
  rcases hfind : t.entries.reverse.findIdx? (· == (name, value)) with _ | i
  · constructor
    · intro h
      exact absurd h (lt_irrefl 0)
    rintro ⟨i, _, -⟩
    have hmin : hpackDynamicIndexMin = 62 := rfl
    omega
  obtain ⟨hlt, heq, -⟩ := findIdx?_eq_some_iff_getElem.mp hfind
  constructor
  · intro _
    exact ⟨i, rfl, List.getElem?_eq_some_iff.mpr ⟨hlt, beq_iff_eq.mp heq⟩⟩
  intro _
  exact Nat.add_pos_left (by decide) i

variable {name value : Bytes}

theorem sends_found (h : t.find name value > 0) :
    t.Sends t (encodeIndexed (UInt64.ofNat (t.find name value))) [(name, value)] := by
  intro hp
  refine ⟨hp, fun r hr => ⟨r, hr, fun limit acc rest out hout => ?_⟩⟩
  obtain ⟨i, hidx, hent⟩ := (t.find_pos_iff name value).mp h
  obtain ⟨d, hd⟩ := exists_refines r
  obtain ⟨hlt, -⟩ := List.getElem?_eq_some_iff.mp hent
  have hsmall : i < 2 ^ 32 := by
    have hlen := length_le_size t.entries
    have hfits := hr.fits
    have hmax := hr.max_le
    rw [← hr.size_eq] at hlen
    rw [length_reverse] at hlt
    unfold h2EncTableMaxSize at hmax
    omega
  have hpeer : r.entries[i]? = some (name, value) := by
    obtain ⟨_, hmore⟩ := hr.front
    rw [← hmore, getElem?_append_left hlt]
    exact hent
  have hrep := encodesRep_dynamic hd hpeer hsmall
  rw [hidx]
  exact Decodes.cons hd hr.peer_lt hrep.ne_nil (hrep.read _ _ _) hout

def NamedAt (idx : ℕ) (name : Bytes) : Prop := idx > 0 → ∃ f, hpackStaticTable[idx]? = some f ∧ f.1 = name

theorem encodeField_sends (cache : HpackFieldCache) (t : HpackEncTable) {idx : ℕ}
    (hidx : NamedAt idx name) (hname : name.length < 2 ^ 63) (hvalue : value.length < 2 ^ 63) :
    t.Sends (t.encodeField cache idx name value).2 (t.encodeField cache idx name value).1 [(name, value)] := by
  unfold encodeField
  dsimp only
  split_ifs with hfound hlong hstatic hstatic
  · exact sends_found hfound
  · obtain ⟨f, hf, rfl⟩ := hidx hstatic
    rw [encodeStaticFieldCached_fst]
    exact sends_plain t (encodesField_static idx hf hstatic (encodeString_encodes hvalue))
  · exact sends_plain t (encodesField_literal (encodeString_encodes hname) (encodeString_encodes hvalue))
  · obtain ⟨f, hf, rfl⟩ := hidx hstatic
    rw [not_or, not_lt, not_lt] at hlong
    exact sends_indexed (fun d => encodesRep_incremental_static d idx hf hstatic (encodeString_encodes hvalue)) hlong.2
  rw [not_or, not_lt, not_lt] at hlong
  exact sends_indexed (fun d => encodesRep_incremental_literal d (encodeString_encodes hname)
    (encodeString_encodes hvalue)) hlong.2

theorem beginBlock_mirrors {r : Table} (h : t.Mirrors r) {limit : ℕ}
    (hlimit : t.pendingUpdate = true → t.maxSize ≤ limit) :
    t.beginBlock.2.pendingUpdate = false ∧ ∃ r', t.beginBlock.2.Mirrors r' ∧ ∀ rest out,
      Decodes limit r' [] rest out → Decodes limit r [] (t.beginBlock.1 ++ rest) out := by
  unfold beginBlock
  split_ifs with hp
  · refine ⟨rfl, r.resize t.maxSize, ?_, fun rest out hout => ?_⟩
    · refine ⟨⟨h.size_eq, h.fits, h.max_le⟩, ?_, fun _ => le_rfl, h.max_le⟩
      apply prefix_evict h.front
      rw [size_reverse, ← h.size_eq]
      exact h.fits
    obtain ⟨d, hd⟩ := exists_refines r
    have hmax := h.max_le
    unfold h2EncTableMaxSize at hmax
    have hread := readRep_sizeUpdate d (show t.maxSize < 2 ^ 64 by omega) (hlimit hp) rest
    refine Decodes.cons hd h.peer_lt (encodeInt_ne_nil _ _ _) hread ?_
    exact hout
  · exact ⟨Bool.eq_false_iff.mpr hp, r, h, fun rest out hout => hout⟩

/-- A table that has changed has counted it; `n` fields change the count by at most `2 * n`. -/
structure Grows (n : ℕ) (t t' : HpackEncTable) : Prop where
  changed : t' = t ∨ t.gen < t'.gen
  bound : t'.gen ≤ t.gen + 2 * n

theorem Grows.refl (n : ℕ) (t : HpackEncTable) : Grows n t t where
  changed := Or.inl rfl
  bound := Nat.le_add_right _ _

theorem Grows.trans {m n : ℕ} {t₁ t₂ t₃ : HpackEncTable} (h₁ : Grows m t₁ t₂) (h₂ : Grows n t₂ t₃) :
    Grows (m + n) t₁ t₃ where
  changed := by
    obtain rfl | hlt := h₂.changed
    · exact h₁.changed
    obtain rfl | hlt' := h₁.changed
    · exact Or.inr hlt
    · exact Or.inr (hlt'.trans hlt)
  bound := by
    have := h₁.bound
    have := h₂.bound
    omega

theorem evictTo_gen (t : HpackEncTable) (limit : ℕ) :
    t.gen ≤ (t.evictTo limit).gen ∧ (t.evictTo limit).gen ≤ t.gen + 1 := by
  unfold evictTo
  dsimp only
  split_ifs
  · exact ⟨le_rfl, Nat.le_succ _⟩
  · exact ⟨Nat.le_succ _, le_rfl⟩

theorem add_grows (h : ¬ hpackEncEntrySize name value > t.maxSize) : Grows 1 t (t.add name value) := by
  unfold add
  rw [if_neg h]
  obtain ⟨hle, _⟩ := t.evictTo_gen (t.maxSize - hpackEncEntrySize name value)
  constructor
  · exact Or.inr (Nat.lt_succ_of_le hle)
  dsimp only
  omega

theorem encodeField_grows (cache : HpackFieldCache) (t : HpackEncTable) (idx : ℕ) (name value : Bytes) :
    Grows 1 t (t.encodeField cache idx name value).2 := by
  unfold encodeField
  dsimp only
  split_ifs with hfound hlong hstatic hstatic
  · exact Grows.refl 1 t
  · exact Grows.refl 1 t
  · exact Grows.refl 1 t
  all_goals exact add_grows fun h => hlong (Or.inr h)

theorem setPeerLimit_maxSize (t : HpackEncTable) (limit : UInt32) :
    (t.setPeerLimit limit).maxSize = min limit.toNat h2EncTableMaxSize := by
  unfold setPeerLimit
  dsimp only
  split_ifs with hsame
  · exact hsame.symm
  · exact (evictTo_frame _ _).1

theorem setPeerLimit_gen (t : HpackEncTable) (limit : UInt32) :
    t.setPeerLimit limit = t ∨ t.gen < (t.setPeerLimit limit).gen := by
  unfold setPeerLimit
  dsimp only
  split_ifs with hsame
  · exact Or.inl rfl
  have hgen := evictTo_gen { t with maxSize := min limit.toNat h2EncTableMaxSize } (min limit.toNat h2EncTableMaxSize)
  exact Or.inr (Nat.lt_succ_of_le hgen.1)

theorem encodeField_cache (cache cache' : HpackFieldCache) : encodeField cache = encodeField cache' := by
  funext t idx name value
  unfold encodeField
  rw [encodeStaticFieldCached_fst, encodeStaticFieldCached_fst]

/-! The size updates that RFC 7541 section 4.2 asks for. -/

def cappedLimit (limit : UInt32) : ℕ := min limit.toNat h2EncTableMaxSize

def smallestLimit (limits : List UInt32) (last : UInt32) : ℕ :=
  limits.foldr (fun limit n => min (cappedLimit limit) n) (cappedLimit last)

def sizeUpdate (maxSize : ℕ) : Bytes := encodeInt 0x20 5 (UInt64.ofNat maxSize)

/-- Size updates of which the first and the last have these values. -/
def Signals (block : Bytes) (first last : ℕ) : Prop := ∃ updates : List ℕ, block = updates.flatMap sizeUpdate ∧
    updates.head? = some first ∧ updates.getLast? = some last

theorem signals_sizeUpdate_iff {n first last : ℕ} (hn : n < 2 ^ 64) (hf : first < 2 ^ 64) :
    Signals (sizeUpdate n) first last ↔ first = n ∧ last = n := by
  have hflags : FlagsFor 0x20 5 := by decide
  constructor
  · rintro ⟨updates, hblock, hhead, hlast⟩
    rcases updates with _ | ⟨a, updates⟩
    · cases hhead
    obtain rfl : a = first := by simpa using hhead
    have hread := hpackDecodeInt_encode hflags (UInt64.ofNat n) []
    rw [append_nil] at hread
    change hpackDecodeInt (sizeUpdate n) 5 = _ at hread
    rw [hblock, flatMap_cons, sizeUpdate, hpackDecodeInt_encode hflags] at hread
    have hval := congrArg UInt64.toNat (Prod.mk.inj hread).1
    rw [toNat_ofNat_of_lt hf, toNat_ofNat_of_lt hn] at hval
    subst hval
    rw [flatMap_cons, self_eq_append_right, flatMap_eq_nil_iff] at hblock
    rcases updates with _ | ⟨b, updates⟩
    · exact ⟨rfl, by simpa using hlast.symm⟩
    obtain ⟨_, _, -, henc⟩ := encodeInt_cons hflags (UInt64.ofNat b)
    have hnil := hblock b mem_cons_self
    rw [sizeUpdate, henc] at hnil
    cases hnil
  rintro ⟨rfl, rfl⟩
  exact ⟨[_], by simp, rfl, rfl⟩

theorem setPeerLimit_pending (t : HpackEncTable) (limit : UInt32) :
    (t.setPeerLimit limit).pendingUpdate = (t.pendingUpdate || cappedLimit limit != t.maxSize) := by
  unfold setPeerLimit cappedLimit
  dsimp only
  split_ifs with hsame
  all_goals simp [hsame]

theorem foldl_setPeerLimit_pending (limits : List UInt32) (t : HpackEncTable)
    (h : (limits.foldl setPeerLimit t).pendingUpdate = false) :
    t.pendingUpdate = false ∧ ∀ limit ∈ limits, cappedLimit limit = t.maxSize := by
  induction limits generalizing t with
  | nil => exact ⟨h, by simp⟩
  | cons limit limits ih =>
    obtain ⟨hpending, hrest⟩ := ih _ h
    rw [setPeerLimit_pending, Bool.or_eq_false_iff, bne_eq_false_iff_eq] at hpending
    rw [setPeerLimit_maxSize] at hrest
    refine ⟨hpending.1, ?_⟩
    intro l hl
    obtain rfl | hl := mem_cons.mp hl
    · exact hpending.2
    · exact (hrest l hl).trans hpending.2

theorem exists_smallestLimit (limits : List UInt32) (last : UInt32) :
    ∃ limit ∈ limits ++ [last], smallestLimit limits last = cappedLimit limit := by
  induction limits with
  | nil => exact ⟨last, by simp, rfl⟩
  | cons limit limits ih =>
    obtain ⟨l, hl, heq⟩ := ih
    obtain hmin | hmin := min_choice (cappedLimit limit) (smallestLimit limits last)
    · exact ⟨limit, by simp, hmin⟩
    · exact ⟨l, by simp at hl ⊢; tauto, hmin.trans heq⟩

/-- After limits of which one was below the size in force, the next block starts as RFC 7541
asks for exactly when the last limit is the smallest. -/
theorem limits_signalled_iff (t : HpackEncTable) (limits : List UInt32) (last : UInt32)
    (hlow : smallestLimit limits last < t.maxSize) :
    Signals ((limits ++ [last]).foldl setPeerLimit t).beginBlock.1 (smallestLimit limits last) (cappedLimit last) ↔
      smallestLimit limits last = cappedLimit last := by
  obtain ⟨limit, hmem, hsmall⟩ := exists_smallestLimit limits last
  have hdue : ((limits ++ [last]).foldl setPeerLimit t).pendingUpdate = true := by
    by_contra hnot
    have hsame := (foldl_setPeerLimit_pending _ t (by simpa using hnot)).2 limit hmem
    omega
  have hmax : ((limits ++ [last]).foldl setPeerLimit t).maxSize = cappedLimit last := by
    rw [foldl_append]
    exact setPeerLimit_maxSize _ last
  have hcap : ∀ l, cappedLimit l < 2 ^ 64 := fun l =>
    (Nat.min_le_right _ _).trans_lt (by decide)
  have hblock : ((limits ++ [last]).foldl setPeerLimit t).beginBlock.1 = sizeUpdate (cappedLimit last) := by
    rw [beginBlock, if_pos hdue, hmax]
    rfl
  rw [hblock, signals_sizeUpdate_iff (hcap last) (hsmall ▸ hcap limit)]
  exact and_iff_left rfl

theorem limits_signalled_iff_shrunk : smallestLimit [100] 0 < (reset {}).maxSize ∧
    (Signals (([100] ++ [0] : List UInt32).foldl setPeerLimit (reset {})).beginBlock.1
        (smallestLimit [100] 0) (cappedLimit 0) ↔ smallestLimit [100] 0 = cappedLimit 0) :=
  ⟨by decide, limits_signalled_iff (reset {}) [100] 0 (by decide)⟩

/-- The limit goes to zero and back: the peer, whose table was emptied, is told of 4096 only. -/
theorem lowered_limit_not_signalled : smallestLimit [0] 4096 < (reset {}).maxSize ∧
    ¬ Signals (([0] ++ [4096] : List UInt32).foldl setPeerLimit (reset {})).beginBlock.1
        (smallestLimit [0] 4096) (cappedLimit 4096) := by
  have hblock : (([0] ++ [4096] : List UInt32).foldl setPeerLimit (reset {})).beginBlock.1 =
      sizeUpdate 4096 := by decide
  constructor
  · decide
  rw [hblock, signals_sizeUpdate_iff (by decide) (by decide)]
  decide

end HpackEncTable

theorem encodeHeaderFold_cache (cache cache' : HpackFieldCache) (name value : Bytes) :
    (encodeHeaderFold cache name value).1 = (encodeHeaderFold cache' name value).1 := by
  unfold encodeHeaderFold
  dsimp only
  split_ifs
  · rw [encodeStaticFieldCached_fst, encodeStaticFieldCached_fst]
  · rfl

end AlosHttp.Hpack
