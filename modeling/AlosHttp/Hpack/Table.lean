import AlosHttp.Data.Ring
import AlosHttp.Spec.HpackTable

/-! The decoder's dynamic table of `hpack.go`: a ring of 128 inline slots that moves to a
larger ring when a bigger table needs more entries. The table is shown to be the table of
RFC 7541 section 4. -/
namespace AlosHttp.Hpack
open List Data Rfc7541

def hpackStaticTable : List Field := ([], []) :: staticTable

def hpackEntryOverhead : ℕ := 32

structure HpackDynEntry where
  name : Bytes := []
  value : Bytes := []
  size : ℕ := 0
  deriving DecidableEq, Inhabited

def HpackDynEntry.field (e : HpackDynEntry) : Field := (e.name, e.value)

/-- The fields of `HpackDecoder` that hold the dynamic table. -/
structure HpackDynTable where
  maxTableSize : ℕ
  dynInline : List HpackDynEntry := replicate 128 {}
  dynRing : List HpackDynEntry := []
  dynHead : ℕ := 0
  dynLen : ℕ := 0
  dynSize : ℕ := 0
  deriving DecidableEq

namespace HpackDynTable

def dynGet (t : HpackDynTable) (i : ℕ) : HpackDynEntry :=
  if t.dynRing.length > 0 then Ring.get t.dynRing t.dynHead i
  else Ring.get t.dynInline t.dynHead i

def dynPut (t : HpackDynTable) (i : ℕ) (e : HpackDynEntry) : HpackDynTable :=
  if t.dynRing.length > 0 then { t with dynRing := Ring.put t.dynRing t.dynHead i e }
  else { t with dynInline := Ring.put t.dynInline t.dynHead i e }

def dynCapacity (t : HpackDynTable) : ℕ :=
  if t.dynRing.length > 0 then t.dynRing.length else t.dynInline.length

def growDynRing (t : HpackDynTable) : HpackDynTable :=
  let oldCapacity := t.dynCapacity
  let maxEntries := t.maxTableSize / 32
  if maxEntries ≤ oldCapacity then t
  else
    let newCapacity := oldCapacity * 2
    let newCapacity :=
      if newCapacity < oldCapacity ∨ newCapacity > maxEntries then maxEntries else newCapacity
    { t with
      dynRing := (range t.dynLen).map t.dynGet ++ replicate (newCapacity - t.dynLen) {}
      dynHead := 0 }

def evictTail (t : HpackDynTable) : HpackDynTable :=
  let tail := t.dynGet (t.dynLen - 1)
  { t.dynPut (t.dynLen - 1) {} with dynSize := t.dynSize - tail.size, dynLen := t.dynLen - 1 }

/-- The eviction loops; each round removes an entry, so `dynLen` rounds suffice. -/
def evictLoop (extra : ℕ) : ℕ → HpackDynTable → HpackDynTable
  | 0, t => t
  | fuel + 1, t =>
    if t.dynSize + extra > t.maxTableSize ∧ t.dynLen > 0 then evictLoop extra fuel t.evictTail
    else t

def pushEntry (t : HpackDynTable) (e : HpackDynEntry) : HpackDynTable :=
  let capacity := t.dynCapacity
  let t := { t with dynHead := (t.dynHead + (capacity - 1)) % capacity }
  { t.dynPut 0 e with dynLen := t.dynLen + 1, dynSize := t.dynSize + e.size }

def addEntry (t : HpackDynTable) (name value : Bytes) : HpackDynTable :=
  let entrySize := hpackEntryOverhead + name.length + value.length
  let t := evictLoop entrySize t.dynLen t
  let t := if entrySize ≤ t.maxTableSize ∧ t.dynLen = t.dynCapacity then t.growDynRing else t
  if entrySize ≤ t.maxTableSize ∧ t.dynLen < t.dynCapacity then
    t.pushEntry ⟨name, value, entrySize⟩
  else t

def setMaxSize (t : HpackDynTable) (maxSize : ℕ) : HpackDynTable :=
  let t := { t with maxTableSize := maxSize }
  evictLoop 0 t.dynLen t

/-- The field at an index and the octets that `lookupIndex` adds to `dynRefBytes`, none for
a static field. A failed lookup is `none`. -/
def fieldAt (t : HpackDynTable) (idx : UInt64) : Option (Field × ℕ) :=
  if idx.toNat < hpackStaticTable.length then
    if idx ≠ 0 then (hpackStaticTable[idx.toNat]?).map fun f => (f, 0) else none
  else
    let dynIdx := idx - UInt64.ofNat hpackStaticTable.length
    if dynIdx.toNat < t.dynLen then
      let e := t.dynGet dynIdx.toNat
      some (e.field, e.size)
    else none

def lookupName (t : HpackDynTable) (idx : UInt64) : Option Bytes :=
  if idx = 0 then none
  else if idx.toNat < hpackStaticTable.length then (hpackStaticTable[idx.toNat]?).map Prod.fst
  else
    -- `int(idx)` and the difference are two's complement
    let dynIdx : Int64 := idx.toInt64 - Int64.ofNat hpackStaticTable.length
    if dynIdx ≥ 0 ∧ dynIdx.toInt < t.dynLen then some (t.dynGet dynIdx.toInt.toNat).name else none

def slots (t : HpackDynTable) : List HpackDynEntry :=
  if t.dynRing.length > 0 then t.dynRing else t.dynInline

def stored (t : HpackDynTable) : List HpackDynEntry := (range t.dynLen).map t.dynGet

def entries (t : HpackDynTable) : List Field := t.stored.map HpackDynEntry.field

open Ring

theorem dynGet_eq (t : HpackDynTable) : t.dynGet = get t.slots t.dynHead := by
  funext i
  unfold dynGet slots
  split_ifs <;> rfl

theorem dynCapacity_eq (t : HpackDynTable) : t.dynCapacity = t.slots.length := by
  unfold dynCapacity slots
  split_ifs <;> rfl

theorem stored_eq (t : HpackDynTable) : t.stored = view t.slots t.dynHead t.dynLen := by
  unfold stored view
  rw [dynGet_eq]

theorem dynPut_frame (t : HpackDynTable) (i : ℕ) (e : HpackDynEntry) :
    (t.dynPut i e).maxTableSize = t.maxTableSize ∧ (t.dynPut i e).dynHead = t.dynHead ∧
      (t.dynPut i e).dynInline.length = t.dynInline.length := by
  unfold dynPut
  split_ifs <;> simp

theorem slots_dynPut (t : HpackDynTable) (i : ℕ) (e : HpackDynEntry) :
    (t.dynPut i e).slots = put t.slots t.dynHead i e := by
  by_cases h : t.dynRing.length > 0
  all_goals simp [dynPut, slots, h]

/-- What the operations keep: the entries fit the slots, every entry carries its own size,
and the size field is their sum and within the maximum. -/
structure Inv (t : HpackDynTable) : Prop where
  inlineLen : t.dynInline.length = 128
  lenLe : t.dynLen ≤ t.slots.length
  sizes : ∀ e ∈ t.stored, e.size = entrySize e.field
  sum : t.dynSize = size t.entries

variable {t : HpackDynTable} {r : Table}

theorem Inv.slots_pos (h : t.Inv) : 0 < t.slots.length := by
  unfold slots
  split_ifs with hr
  · exact hr
  · rw [h.inlineLen]; omega

theorem slots_evictTail (t : HpackDynTable) : t.evictTail.slots = put t.slots t.dynHead (t.dynLen - 1) {} :=
  slots_dynPut t (t.dynLen - 1) {}

theorem stored_evictTail (h : t.Inv) (hpos : 0 < t.dynLen) :
    t.stored = t.evictTail.stored ++ [t.dynGet (t.dynLen - 1)] := by
  have hlt : t.dynLen - 1 < t.slots.length := by have := h.lenLe; omega
  have hhead : t.evictTail.dynHead = t.dynHead := (dynPut_frame t _ _).2.1
  have hlen : t.evictTail.dynLen = t.dynLen - 1 := rfl
  rw [stored_eq, stored_eq, hhead, hlen, slots_evictTail, view_put hlt, dynGet_eq, ← view_succ, Nat.sub_add_cancel hpos]

theorem evictTail_spec (h : t.Inv) (hpos : 0 < t.dynLen) :
    t.evictTail.Inv ∧ ∃ f, t.entries = t.evictTail.entries ++ [f] := by
  have hstored := stored_evictTail h hpos
  have hentries : t.entries = t.evictTail.entries ++ [(t.dynGet (t.dynLen - 1)).field] := by
    unfold entries
    rw [hstored, map_append, map_singleton]
  have htail : (t.dynGet (t.dynLen - 1)).size = entrySize (t.dynGet (t.dynLen - 1)).field :=
    h.sizes _ (by rw [hstored]; simp)
  refine ⟨⟨?_, ?_, ?_, ?_⟩, _, hentries⟩
  · exact (dynPut_frame t _ _).2.2.trans h.inlineLen
  · have := h.lenLe
    rw [slots_evictTail, put_length]
    show t.dynLen - 1 ≤ t.slots.length
    omega
  · intro e he
    exact h.sizes e (by rw [hstored]; exact mem_append_left _ he)
  have hsum := h.sum
  rw [hentries, size_append, size_cons, size_nil] at hsum
  show t.dynSize - (t.dynGet (t.dynLen - 1)).size = size t.evictTail.entries
  omega

theorem entries_length (t : HpackDynTable) : t.entries.length = t.dynLen := by
  simp [entries, stored]

theorem evictLoop_spec (extra : ℕ) {fuel : ℕ} (h : t.Inv) (hfuel : t.dynLen ≤ fuel) :
    (evictLoop extra fuel t).Inv ∧ (evictLoop extra fuel t).maxTableSize = t.maxTableSize ∧
      (evictLoop extra fuel t).entries =
        if extra ≤ t.maxTableSize then evict (t.maxTableSize - extra) t.entries else [] := by
  induction fuel generalizing t with
  | zero =>
    have hnil : t.entries = [] := length_eq_zero_iff.mp (by rw [entries_length]; omega)
    refine ⟨h, rfl, ?_⟩
    show t.entries = _
    rw [hnil]
    split_ifs <;> rfl
  | succ fuel ih =>
    have hsum := h.sum
    rw [evictLoop]
    by_cases hc : t.dynSize + extra > t.maxTableSize ∧ t.dynLen > 0
    · rw [if_pos hc]
      obtain ⟨hinv, f, hf⟩ := evictTail_spec h hc.2
      have hmax : t.evictTail.maxTableSize = t.maxTableSize := (dynPut_frame t _ _).1
      have hlen : t.evictTail.dynLen = t.dynLen - 1 := rfl
      obtain ⟨hi, hm, he⟩ := ih hinv (by omega)
      refine ⟨hi, hm.trans hmax, ?_⟩
      rw [he, hmax]
      split_ifs with hx
      · rw [hf, evict_concat (by rw [← hf, ← hsum]; omega)]
      · rfl
    rw [if_neg hc]
    refine ⟨h, rfl, ?_⟩
    split_ifs with hx
    · by_cases hz : t.dynLen = 0
      · have hnil : t.entries = [] := length_eq_zero_iff.mp (by rw [entries_length, hz])
        rw [hnil]
        rfl
      · rw [evict_of_le (by rw [← hsum]; omega)]
    · exact length_eq_zero_iff.mp (by rw [entries_length]; omega)

theorem growDynRing_spec (h : t.Inv) (hfull : t.dynLen = t.dynCapacity) (hroom : (t.dynLen + 1) * 32 ≤ t.maxTableSize) :
    t.growDynRing.Inv ∧ t.growDynRing.entries = t.entries ∧
      t.growDynRing.maxTableSize = t.maxTableSize ∧ t.growDynRing.dynLen < t.growDynRing.dynCapacity := by
  have hcap : 0 < t.dynCapacity := by rw [dynCapacity_eq]; exact h.slots_pos
  have hmore : ¬ t.maxTableSize / 32 ≤ t.dynCapacity := by omega
  obtain ⟨cap, hcap_lt, hgrow⟩ : ∃ cap, t.dynLen < cap ∧ t.growDynRing =
      { t with dynRing := t.stored ++ replicate (cap - t.dynLen) {}, dynHead := 0 } := by
    refine ⟨_, ?_, if_neg hmore⟩
    split_ifs <;> omega
  have hring : (t.stored ++ replicate (cap - t.dynLen) ({} : HpackDynEntry)).length = cap := by
    simp [stored]; omega
  have hslots : t.growDynRing.slots = t.stored ++ replicate (cap - t.dynLen) ({} : HpackDynEntry) := by
    rw [hgrow]
    unfold slots
    rw [if_pos (by rw [hring]; omega)]
  have hstored : t.growDynRing.stored = t.stored := by
    rw [stored_eq, hslots, hgrow]
    rw [stored_eq, view_copy]
  have hentries : t.growDynRing.entries = t.entries := by unfold entries; rw [hstored]
  have hlen : t.growDynRing.dynLen = t.dynLen := by rw [hgrow]
  refine ⟨⟨?_, ?_, ?_, ?_⟩, hentries, by rw [hgrow], ?_⟩
  · rw [hgrow]; exact h.inlineLen
  · rw [hslots, hring, hlen]; omega
  · rw [hstored]; exact h.sizes
  · rw [hentries, hgrow]; exact h.sum
  · rw [dynCapacity_eq, hslots, hring, hlen]; omega

theorem pushEntry_spec {e : HpackDynEntry} (h : t.Inv)
    (hfree : t.dynLen < t.dynCapacity) (he : e.size = entrySize e.field) :
    (t.pushEntry e).Inv ∧ (t.pushEntry e).entries = e.field :: t.entries ∧
      (t.pushEntry e).maxTableSize = t.maxTableSize := by
  rw [dynCapacity_eq] at hfree
  have hslots : (t.pushEntry e).slots = put t.slots (before t.dynHead t.slots.length) 0 e := by
    rw [← dynCapacity_eq]
    exact slots_dynPut { t with dynHead := before t.dynHead t.dynCapacity } 0 e
  have hframe := dynPut_frame { t with dynHead := before t.dynHead t.dynCapacity } 0 e
  have hstored : (t.pushEntry e).stored = e :: t.stored := by
    have hhead : (t.pushEntry e).dynHead = before t.dynHead t.slots.length := by
      rw [← dynCapacity_eq]; exact hframe.2.1
    rw [stored_eq, hslots, hhead, stored_eq]
    exact view_push hfree
  have hentries : (t.pushEntry e).entries = e.field :: t.entries := by
    unfold entries
    rw [hstored, map_cons]
  refine ⟨⟨?_, ?_, ?_, ?_⟩, hentries, hframe.1⟩
  · exact hframe.2.2.trans h.inlineLen
  · rw [hslots, put_length]; exact hfree
  · rw [hstored]
    exact forall_mem_cons.mpr ⟨he, h.sizes⟩
  have hsum := h.sum
  rw [hentries, size_cons, ← he, ← hsum]
  exact add_comm _ _

structure Refines (t : HpackDynTable) (r : Table) : Prop where
  inv : t.Inv
  entries : t.entries = r.entries
  maxSize : t.maxTableSize = r.maxSize

theorem refines_empty (n : ℕ) : Refines { maxTableSize := n } (Table.empty n) where
  inv := ⟨rfl, Nat.zero_le _, by simp [stored], rfl⟩
  entries := rfl
  maxSize := rfl

theorem Refines.addEntry (h : Refines t r) (name value : Bytes) :
    Refines (t.addEntry name value) (r.insert (name, value)) := by
  have hes : hpackEntryOverhead + name.length + value.length = entrySize (name, value) := by
    simp only [hpackEntryOverhead, entrySize]; omega
  unfold HpackDynTable.addEntry
  simp only [hes]
  obtain ⟨hinv, hmax, hent⟩ := evictLoop_spec (entrySize (name, value)) h.inv le_rfl
  generalize evictLoop (entrySize (name, value)) t.dynLen t = u at hinv hmax hent ⊢
  rw [h.maxSize] at hmax hent
  rw [h.entries] at hent
  split_ifs at hent with hfit
  · -- one more entry fits, so a full ring is still allowed to grow
    have hroom : (u.dynLen + 1) * 32 ≤ u.maxTableSize := by
      have hlen := length_le_size u.entries
      have hsz := size_evict_le (r.maxSize - entrySize (name, value)) r.entries
      have h32 : 32 ≤ entrySize (name, value) := by simp only [entrySize]; omega
      rw [entries_length] at hlen
      rw [← hent] at hsz
      omega
    obtain ⟨v, hv, hvinv, hvent, hvmax, hvfree⟩ : ∃ v,
        (if entrySize (name, value) ≤ u.maxTableSize ∧ u.dynLen = u.dynCapacity then u.growDynRing
          else u) = v ∧ v.Inv ∧ v.entries = u.entries ∧ v.maxTableSize = u.maxTableSize ∧
          v.dynLen < v.dynCapacity := by
      by_cases hfull : u.dynLen = u.dynCapacity
      · rw [if_pos ⟨by omega, hfull⟩]
        exact ⟨_, rfl, growDynRing_spec hinv hfull hroom⟩
      rw [if_neg (fun hc => hfull hc.2)]
      have hle := hinv.lenLe
      rw [← dynCapacity_eq] at hle
      exact ⟨u, rfl, hinv, rfl, rfl, by omega⟩
    rw [hv, if_pos ⟨by omega, hvfree⟩]
    obtain ⟨hpinv, hpent, hpmax⟩ := pushEntry_spec (e := ⟨name, value, entrySize (name, value)⟩) hvinv hvfree rfl
    refine ⟨hpinv, ?_, by rw [hpmax, hvmax, hmax]; rfl⟩
    rw [hpent, hvent, hent]
    exact (if_pos hfit).symm
  have hno : ¬ entrySize (name, value) ≤ u.maxTableSize := by omega
  simp only [hno, false_and, if_false]
  exact ⟨hinv, hent.trans (if_neg hfit).symm, hmax⟩

theorem exists_refines (r : Table) : ∃ t : HpackDynTable, t.Refines r := by
  obtain ⟨entries, maxSize, fits⟩ := r
  induction entries with
  | nil => exact ⟨_, refines_empty maxSize⟩
  | cons f entries ih =>
    rw [size_cons] at fits
    obtain ⟨t, ht⟩ := ih (by omega)
    refine ⟨t.addEntry f.1 f.2, ?_⟩
    have hinsert : (Table.mk entries maxSize (by omega)).insert f =
        ⟨f :: entries, maxSize, by rw [size_cons]; exact fits⟩ := by
      apply Table.ext
      · unfold Table.insert
        dsimp only
        rw [if_pos (by omega), evict_of_le (by omega)]
      · rfl
    rw [← hinsert]
    exact ht.addEntry f.1 f.2

theorem Refines.setMaxSize (h : Refines t r) (n : ℕ) : Refines (t.setMaxSize n) (r.resize n) := by
  have hinv : ({ t with maxTableSize := n } : HpackDynTable).Inv :=
    ⟨h.inv.inlineLen, h.inv.lenLe, h.inv.sizes, h.inv.sum⟩
  obtain ⟨hi, hm, he⟩ := evictLoop_spec 0 hinv le_rfl
  refine ⟨hi, ?_, hm⟩
  exact he.trans (congrArg (evict n) h.entries)

theorem toInt_toInt64 (idx : UInt64) : idx.toInt64.toInt = (idx.toNat : ℤ).bmod (2 ^ 64) := by
  rw [← Int64.toInt_toBitVec]
  exact BitVec.toInt_eq_toNat_bmod _

theorem dynIdx_lt_iff {idx : UInt64} {len : ℕ} (hidx : 62 ≤ idx.toNat) (hlen : len < 2 ^ 62) :
    let dynIdx := idx.toInt64 - Int64.ofNat hpackStaticTable.length
    (dynIdx ≥ 0 ∧ dynIdx.toInt < len ↔ idx.toNat - 62 < len) ∧
      (idx.toNat - 62 < len → dynIdx.toInt.toNat = idx.toNat - 62) := by
  intro dynIdx
  have hlt := idx.toNat_lt
  have hval : dynIdx.toInt = (((idx.toNat : ℤ).bmod (2 ^ 64)) - 62).bmod (2 ^ 64) := by
    rw [Int64.toInt_sub, toInt_toInt64]
    rfl
  rw [ge_iff_le, Int64.le_iff_toInt_le, hval, show (0 : Int64).toInt = 0 from rfl]
  simp only [Int.bmod_def]
  omega

theorem hpackStaticTable_length : hpackStaticTable.length = 62 := rfl

theorem fieldAt_dynamic (t : HpackDynTable) {idx : UInt64} (h : 62 ≤ idx.toNat) : (t.fieldAt idx).map Prod.fst =
      if idx.toNat - 62 < t.dynLen then some (t.dynGet (idx.toNat - 62)).field else none := by
  have hsub : (idx - UInt64.ofNat hpackStaticTable.length).toNat = idx.toNat - 62 := by
    apply UInt64.toNat_sub_of_le
    exact h
  unfold fieldAt
  rw [if_neg (by rw [hpackStaticTable_length]; omega)]
  simp only [hsub]
  split_ifs <;> rfl

theorem lookupName_dynamic {idx : UInt64} (h : 62 ≤ idx.toNat) (hlen : t.dynLen < 2 ^ 62) : t.lookupName idx =
      if idx.toNat - 62 < t.dynLen then some (t.dynGet (idx.toNat - 62)).name else none := by
  obtain ⟨hiff, hnat⟩ := dynIdx_lt_iff h hlen
  have hne : idx ≠ 0 := by rintro rfl; simp at h
  unfold lookupName
  rw [if_neg hne, if_neg (by rw [hpackStaticTable_length]; omega)]
  by_cases hd : idx.toNat - 62 < t.dynLen
  · rw [if_pos (hiff.mpr hd), if_pos hd, hnat hd]
  · rw [if_neg (fun hc => hd (hiff.mp hc)), if_neg hd]

theorem entries_getElem? (t : HpackDynTable) (i : ℕ) :
    t.entries[i]? = if i < t.dynLen then some (t.dynGet i).field else none := by
  unfold HpackDynTable.entries HpackDynTable.stored
  split_ifs with h <;> simp [h]

theorem Refines.fieldAt (h : t.Refines r) (idx : UInt64) : (t.fieldAt idx).map Prod.fst = r.lookup idx.toNat := by
  have hst : staticTable.length = 61 := rfl
  by_cases hs : idx.toNat < 62
  · have hs' : idx.toNat < hpackStaticTable.length := hs
    unfold HpackDynTable.fieldAt Table.lookup
    rw [if_pos hs']
    by_cases h0 : idx = 0
    · subst h0; rfl
    have hne : idx.toNat ≠ 0 := fun hz => h0 (UInt64.toNat_inj.mp hz)
    rw [if_pos h0, if_neg hne, if_pos (by omega), Option.map_map]
    obtain ⟨k, hk⟩ := Nat.exists_eq_succ_of_ne_zero hne
    rw [hk]
    exact Option.map_id_apply
  rw [fieldAt_dynamic t (by omega), ← entries_getElem?, h.entries]
  unfold Table.lookup
  rw [if_neg (by omega), if_neg (by omega), hst, Nat.sub_sub]

theorem Refines.lookupName (h : t.Refines r) (hmax : r.maxSize < 2 ^ 64) (idx : UInt64) :
    t.lookupName idx = (r.lookup idx.toNat).map Prod.fst := by
  rw [← h.fieldAt]
  by_cases hs : idx.toNat < 62
  · have hs' : idx.toNat < hpackStaticTable.length := hs
    unfold HpackDynTable.lookupName HpackDynTable.fieldAt
    by_cases h0 : idx = 0
    · subst h0; rfl
    rw [if_neg h0, if_pos hs', if_pos hs', if_pos h0, Option.map_map, Option.map_map]
    rfl
  have hlen : t.dynLen < 2 ^ 62 := by
    have hfit := r.fits
    have hcount := length_le_size r.entries
    rw [← h.entries, t.entries_length, h.entries] at hcount
    omega
  rw [lookupName_dynamic (by omega) hlen, fieldAt_dynamic t (by omega)]
  split_ifs <;> rfl

end HpackDynTable

structure HpackRequestMeta where
  method : Bytes := []
  path : Bytes := []
  rawPath : Bytes := []
  query : Bytes := []
  scheme : Bytes := []
  authority : Bytes := []
  headerCount : ℕ := 0
  contentLength : ℕ := 0
  pseudoMask : UInt8 := 0
  sawRegular : Bool := false
  hasContentLength : Bool := false
  allowProtocol : Bool := false
  protocolSet : Bool := false
  protocolWebSocket : Bool := false
  deriving DecidableEq

/-- A remembered Huffman string: its coded bytes stand in `inline` up to 64 bytes, in
`heap` beyond. -/
structure HpackHuffmanDecodeCacheEntry where
  used : Bool := false
  hash : UInt64 := 0
  size : ℕ := 0
  value : Bytes := []
  heap : Bytes := []
  inline : Bytes := replicate 64 0
  deriving DecidableEq

structure HpackDecoder extends HpackDynTable where
  protocolMaxSize : ℕ
  dynRefBytes : ℕ := 0
  dynNameMax : ℕ := 0
  huffmanCache : List HpackHuffmanDecodeCacheEntry := replicate 16 {}
  huffmanCacheNext : UInt8 := 0
  tableGen : UInt64 := 0
  memoBlock : Bytes := []
  memoHeaders : List Field := []
  memoMeta : HpackRequestMeta := {}
  memoValid : Bool := false
  memoRoot : Bool := false
  allowExtendedConnect : Bool := false
  maxHeaderListSize : ℕ
  deriving DecidableEq

def h2MaxHeaderListSize : ℕ := 8192

def newHpackDecoder (tableSize : UInt32) : HpackDecoder where
  maxTableSize := tableSize.toNat
  protocolMaxSize := tableSize.toNat
  maxHeaderListSize := h2MaxHeaderListSize

namespace HpackDecoder

def lookupIndex (d : HpackDecoder) (idx : UInt64) : Option Field × HpackDecoder :=
  match d.fieldAt idx with
  | some (f, size) => (some f, { d with dynRefBytes := d.dynRefBytes + size })
  | none => (none, d)

def addEntry (d : HpackDecoder) (name value : Bytes) : HpackDecoder :=
  { d with
    toHpackDynTable := d.toHpackDynTable.addEntry name value
    tableGen := d.tableGen + 1
    memoValid := false
    dynNameMax := max d.dynNameMax name.length }

def setMaxSize (d : HpackDecoder) (maxSize : ℕ) : HpackDecoder :=
  { d with
    toHpackDynTable := d.toHpackDynTable.setMaxSize maxSize
    tableGen := d.tableGen + 1
    memoValid := false }

theorem lookupIndex_fst (d : HpackDecoder) (idx : UInt64) : (d.lookupIndex idx).1 = (d.fieldAt idx).map Prod.fst := by
  unfold lookupIndex
  cases d.fieldAt idx <;> rfl

end HpackDecoder

inductive TableCall where
  | addEntry (name value : Bytes)
  | setMaxSize (maxSize : ℕ)

def HpackDecoder.tableCall (d : HpackDecoder) : TableCall → HpackDecoder
  | .addEntry name value => d.addEntry name value
  | .setMaxSize maxSize => d.setMaxSize maxSize

def TableCall.reference (r : Table) : TableCall → Table
  | .addEntry name value => r.insert (name, value)
  | .setMaxSize maxSize => r.resize maxSize

theorem HpackDecoder.refines_tableCall {d : HpackDecoder} {r : Table}
    (h : d.toHpackDynTable.Refines r) (c : TableCall) :
    (d.tableCall c).toHpackDynTable.Refines (c.reference r) := by
  cases c with
  | addEntry name value => exact h.addEntry name value
  | setMaxSize maxSize => exact h.setMaxSize maxSize

theorem HpackDecoder.refines_tableCalls (calls : List TableCall) {d : HpackDecoder} {r : Table}
    (h : d.toHpackDynTable.Refines r) :
    (calls.foldl tableCall d).toHpackDynTable.Refines (calls.foldl TableCall.reference r) := by
  induction calls generalizing d r with
  | nil => exact h
  | cons c calls ih => exact ih (refines_tableCall h c)

theorem TableCall.reference_maxSize_le {limit : ℕ} (calls : List TableCall)
    (hcalls : ∀ n, .setMaxSize n ∈ calls → n ≤ limit) {r : Table} (h : r.maxSize ≤ limit) :
    (calls.foldl TableCall.reference r).maxSize ≤ limit := by
  induction calls generalizing r with
  | nil => exact h
  | cons c calls ih =>
    apply ih (fun n hn => hcalls n (mem_cons_of_mem c hn))
    cases c with
    | addEntry name value => exact h
    | setMaxSize n => exact hcalls n mem_cons_self

/-- The new decoder's table, after any calls with sizes up to the protocol limit, is the
reference table: its entries newest first, its size, and every dynamic index. -/
theorem hpackDecoder_refines_table (tableSize : UInt32) (calls : List TableCall)
    (hcalls : ∀ n, .setMaxSize n ∈ calls → n ≤ tableSize.toNat) :
    let d := calls.foldl HpackDecoder.tableCall (newHpackDecoder tableSize)
    let r := calls.foldl TableCall.reference (Table.empty tableSize.toNat)
    (range d.dynLen).map (fun i => (d.dynGet i).field) = r.entries ∧
      d.dynSize = size r.entries ∧ d.dynSize ≤ d.maxTableSize ∧ d.maxTableSize = r.maxSize ∧
      ∀ (idx : UInt64) (i : ℕ), idx.toNat = 62 + i →
        (d.lookupIndex idx).1 = r.entries[i]? ∧ d.lookupName idx = (r.entries[i]?).map Prod.fst ∧
          ((d.lookupIndex idx).1 = none ↔ d.dynLen ≤ i) ∧ (d.lookupName idx = none ↔ d.dynLen ≤ i) := by
  intro d r
  have h : d.toHpackDynTable.Refines r :=
    HpackDecoder.refines_tableCalls calls (HpackDynTable.refines_empty tableSize.toNat)
  have hmax : r.maxSize ≤ tableSize.toNat := TableCall.reference_maxSize_le calls hcalls le_rfl
  have hsize : d.dynSize = size r.entries := by rw [h.inv.sum, h.entries]
  refine ⟨?_, hsize, ?_, h.maxSize, ?_⟩
  · rw [← h.entries]
    unfold HpackDynTable.entries HpackDynTable.stored
    rw [map_map]
    rfl
  · rw [hsize, h.maxSize]; exact r.fits
  intro idx i _
  have hlt := tableSize.toNat_lt
  have hlookup : r.lookup idx.toNat = r.entries[i]? := by
    have hst : staticTable.length = 61 := rfl
    unfold Table.lookup
    rw [if_neg (by omega), if_neg (by omega), hst, show idx.toNat - 61 - 1 = i by omega]
  have hi : (d.lookupIndex idx).1 = r.entries[i]? := by
    rw [HpackDecoder.lookupIndex_fst, h.fieldAt, hlookup]
  have hn : d.lookupName idx = (r.entries[i]?).map Prod.fst := by
    rw [h.lookupName (by omega), hlookup]
  have hlen : r.entries.length = d.dynLen := by rw [← h.entries]; exact d.entries_length
  refine ⟨hi, hn, ?_, ?_⟩
  · rw [hi, List.getElem?_eq_none_iff, hlen]
  · rw [hn, Option.map_eq_none_iff, List.getElem?_eq_none_iff, hlen]

/-- Two insertions and a shrink to 70 octets that evicts the older entry. -/
def sampleTableCalls : List TableCall :=
  [.addEntry (ascii "x-a") (ascii "1"), .addEntry (ascii "x-b") (ascii "22"), .setMaxSize 70]

theorem hpackDecoder_refines_table_sample :
    let d := sampleTableCalls.foldl HpackDecoder.tableCall (newHpackDecoder 4096)
    d.dynLen = 1 ∧ (d.lookupIndex 62).1 = some (ascii "x-b", ascii "22") ∧
      (d.lookupIndex 63).1 = none := by
  have hcalls : ∀ n, .setMaxSize n ∈ sampleTableCalls → n ≤ (4096 : UInt32).toNat := by
    intro n hn
    simp [sampleTableCalls] at hn
    subst hn
    decide
  obtain ⟨-, -, -, -, hidx⟩ := hpackDecoder_refines_table 4096 sampleTableCalls hcalls
  have hentries : (sampleTableCalls.foldl TableCall.reference (Table.empty (4096 : UInt32).toNat)).entries =
      [(ascii "x-b", ascii "22")] := by decide +kernel
  refine ⟨by decide +kernel, (hidx 62 0 rfl).1.trans (by rw [hentries]; rfl),
    (hidx 63 1 rfl).1.trans (by rw [hentries]; rfl)⟩

end AlosHttp.Hpack
