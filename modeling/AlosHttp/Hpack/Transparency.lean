import AlosHttp.Hpack.Decoder

/-! What a field loop leaves of the decoder: its result depends on the table and the limits
only, and it keeps the block memo as long as it does not touch the table. -/
namespace AlosHttp.Hpack

/-- Equal up to the Huffman cache, the referenced octets and the block memo. -/
structure HpackDecoder.Alike (d e : HpackDecoder) : Prop where
  table : d.toHpackDynTable = e.toHpackDynTable
  limit : d.protocolMaxSize = e.protocolMaxSize
  nameMax : d.dynNameMax = e.dynNameMax
  gen : d.tableGen = e.tableGen
  connect : d.allowExtendedConnect = e.allowExtendedConnect
  listSize : d.maxHeaderListSize = e.maxHeaderListSize
  left : d.CacheOk
  right : e.CacheOk

namespace HpackDecoder.Alike
variable {d e : HpackDecoder}

theorem refl (h : d.CacheOk) : d.Alike d := ⟨rfl, rfl, rfl, rfl, rfl, rfl, h, h⟩

theorem symm (h : d.Alike e) : e.Alike d :=
  ⟨h.table.symm, h.limit.symm, h.nameMax.symm, h.gen.symm, h.connect.symm, h.listSize.symm, h.right, h.left⟩

theorem trans {f : HpackDecoder} (h : d.Alike e) (h' : e.Alike f) : d.Alike f :=
  ⟨h.table.trans h'.table, h.limit.trans h'.limit, h.nameMax.trans h'.nameMax,
    h.gen.trans h'.gen, h.connect.trans h'.connect, h.listSize.trans h'.listSize, h.left, h'.right⟩

theorem touched (hd : d.CacheOk) {cache next ref}
    (h : (d.touched cache next ref).CacheOk) : (d.touched cache next ref).Alike d :=
  ⟨rfl, rfl, rfl, rfl, rfl, rfl, h, hd⟩

theorem applyDecoder (h : d.Alike e) (rep : Rep) : (rep.applyDecoder d).Alike (rep.applyDecoder e) := by
  cases rep with
  | field f index =>
    cases index with
    | false => exact h
    | true =>
      constructor
      · exact congrArg (fun t => HpackDynTable.addEntry t f.1 f.2) h.table
      · exact h.limit
      · exact congrArg (fun n => max n f.1.length) h.nameMax
      · exact congrArg (· + 1) h.gen
      · exact h.connect
      · exact h.listSize
      · exact h.left
      · exact h.right
  | sizeUpdate m =>
    constructor
    · exact congrArg (fun t => HpackDynTable.setMaxSize t m) h.table
    · exact h.limit
    · exact h.nameMax
    · exact congrArg (· + 1) h.gen
    · exact h.connect
    · exact h.listSize
    · exact h.left
    · exact h.right

end HpackDecoder.Alike

structure HpackDecoder.Changed (k : ℕ) (d e : HpackDecoder) : Prop where
  gen : e.tableGen = d.tableGen + UInt64.ofNat k
  block : e.memoBlock = d.memoBlock
  headers : e.memoHeaders = d.memoHeaders
  reqMeta : e.memoMeta = d.memoMeta
  root : e.memoRoot = d.memoRoot
  limit : e.protocolMaxSize = d.protocolMaxSize
  connect : e.allowExtendedConnect = d.allowExtendedConnect
  listSize : e.maxHeaderListSize = d.maxHeaderListSize
  cache : e.CacheOk
  same : k = 0 → e.toHpackDynTable = d.toHpackDynTable ∧ e.dynNameMax = d.dynNameMax ∧ e.memoValid = d.memoValid
  dropped : k ≠ 0 → e.memoValid = false

namespace HpackDecoder.Changed
variable {d : HpackDecoder}

theorem refl (h : d.CacheOk) : Changed 0 d d :=
  ⟨(UInt64.add_zero _).symm, rfl, rfl, rfl, rfl, rfl, rfl, rfl, h, fun _ => ⟨rfl, rfl, rfl⟩, fun h0 => absurd rfl h0⟩

theorem touched {cache next ref} (h : (d.touched cache next ref).CacheOk) : Changed 0 d (d.touched cache next ref) :=
  ⟨(UInt64.add_zero _).symm, rfl, rfl, rfl, rfl, rfl, rfl, rfl, h, fun _ => ⟨rfl, rfl, rfl⟩, fun h0 => absurd rfl h0⟩

theorem applyDecoder (h : d.CacheOk) (rep : Rep) : ∃ k ≤ 1, Changed k d (rep.applyDecoder d) := by
  cases rep with
  | field f index =>
    cases index with
    | false => exact ⟨0, by omega, refl h⟩
    | true =>
      exact ⟨1, le_rfl, rfl, rfl, rfl, rfl, rfl, rfl, rfl, rfl, h, fun h0 => absurd h0 one_ne_zero, fun _ => rfl⟩
  | sizeUpdate m =>
    exact ⟨1, le_rfl, rfl, rfl, rfl, rfl, rfl, rfl, rfl, rfl, h, fun h0 => absurd h0 one_ne_zero, fun _ => rfl⟩

theorem trans {j k : ℕ} {e f : HpackDecoder} (h : Changed j d e) (h' : Changed k e f) : Changed (j + k) d f where
  gen := by rw [h'.gen, h.gen, UInt64.ofNat_add, UInt64.add_assoc]
  block := h'.block.trans h.block
  headers := h'.headers.trans h.headers
  reqMeta := h'.reqMeta.trans h.reqMeta
  root := h'.root.trans h.root
  limit := h'.limit.trans h.limit
  connect := h'.connect.trans h.connect
  listSize := h'.listSize.trans h.listSize
  cache := h'.cache
  same h0 := by
    obtain ⟨ht, hn, hv⟩ := h.same (by omega)
    obtain ⟨ht', hn', hv'⟩ := h'.same (by omega)
    exact ⟨ht'.trans ht, hn'.trans hn, hv'.trans hv⟩
  dropped h0 := by
    by_cases hk : k = 0
    · rw [(h'.same hk).2.2]
      exact h.dropped (by omega)
    · exact h'.dropped hk

theorem gen_eq_iff {k : ℕ} {e : HpackDecoder} (h : Changed k d e) (hk : k < 2 ^ 64) :
    e.tableGen = d.tableGen ↔ k = 0 := by
  rw [h.gen]
  constructor
  · intro heq
    have hz : UInt64.ofNat k = 0 := by simpa using heq
    have := congrArg UInt64.toNat hz
    rw [UInt64.toNat_ofNat', Nat.mod_eq_of_lt hk] at this
    exact this
  rintro rfl
  exact UInt64.add_zero _

end HpackDecoder.Changed

section
variable {σ : Type} (hpackHashBytes : Bytes → UInt64)
namespace FieldLoop

theorem round_dec (L : FieldLoop σ) (acc : σ) (d : HpackDecoder) (rep : Rep) :
    (L.round acc d rep).dec = d ∨ (L.round acc d rep).dec = rep.applyDecoder d := by
  unfold round
  cases rep with
  | field f index =>
    dsimp only
    obtain ⟨acc', err⟩ := L.observe acc f
    cases err with
    | some e => exact .inl rfl
    | none =>
      right
      cases index <;> rfl
  | sizeUpdate m => exact .inr rfl

theorem round_ref (L : FieldLoop σ) (acc : σ) (d : HpackDecoder) (rep : Rep) :
    (L.round acc d rep).dec.dynRefBytes = d.dynRefBytes := by
  obtain heq | heq := L.round_dec acc d rep
  · rw [heq]
  rw [heq]
  cases rep with
  | field f index => cases index <;> rfl
  | sizeUpdate m => rfl

variable {d : HpackDecoder}

theorem round_alike (L : FieldLoop σ) (acc : σ) {e : HpackDecoder} (h : d.Alike e) (rep : Rep) :
    (L.round acc d rep).acc = (L.round acc e rep).acc ∧ (L.round acc d rep).err = (L.round acc e rep).err ∧
      (L.round acc d rep).dec.Alike (L.round acc e rep).dec := by
  unfold round
  cases rep with
  | field f index =>
    dsimp only
    obtain ⟨acc', err⟩ := L.observe acc f
    cases err with
    | some e => exact ⟨rfl, rfl, h⟩
    | none =>
      refine ⟨rfl, rfl, ?_⟩
      have := h.applyDecoder (.field f index)
      cases index <;> exact this
  | sizeUpdate m => exact ⟨rfl, rfl, h.applyDecoder (.sizeUpdate m)⟩

theorem run_alike (L : FieldLoop σ) (fuel : ℕ) {e : HpackDecoder} (h : d.Alike e) (acc : σ) (data : Bytes) :
    (L.run hpackHashBytes fuel d acc data).acc = (L.run hpackHashBytes fuel e acc data).acc ∧
      (L.run hpackHashBytes fuel d acc data).err = (L.run hpackHashBytes fuel e acc data).err ∧
      (L.run hpackHashBytes fuel d acc data).dec.Alike (L.run hpackHashBytes fuel e acc data).dec ∧
      ∃ ref, (L.run hpackHashBytes fuel d acc data).dec.dynRefBytes = d.dynRefBytes + ref ∧
        (L.run hpackHashBytes fuel e acc data).dec.dynRefBytes = e.dynRefBytes + ref := by
  induction fuel generalizing d e acc data with
  | zero =>
    cases data with
    | nil | cons b data => rw [run, run]; exact ⟨rfl, rfl, h, 0, rfl, rfl⟩
  | succ fuel ih =>
    rcases data with _ | ⟨b, data⟩
    · rw [run, run]; exact ⟨rfl, rfl, h, 0, rfl, rfl⟩
    obtain ⟨d₁, ⟨_, _, hd₁⟩, hokd, hrund⟩ := L.run_cons hpackHashBytes fuel h.left acc b data
    obtain ⟨e₁, ⟨_, _, he₁⟩, hoke, hrune⟩ := L.run_cons hpackHashBytes fuel h.right acc b data
    have h₁ : d₁.Alike e₁ := by
      rw [hd₁] at hokd ⊢
      rw [he₁] at hoke ⊢
      exact (HpackDecoder.Alike.touched h.left hokd).trans (h.trans (HpackDecoder.Alike.touched h.right hoke).symm)
    have href : ∀ d' e' : HpackDecoder, (∃ ref, d'.dynRefBytes = d₁.dynRefBytes + ref ∧
        e'.dynRefBytes = e₁.dynRefBytes + ref) → ∃ ref, d'.dynRefBytes = d.dynRefBytes + ref ∧
        e'.dynRefBytes = e.dynRefBytes + ref := by
      rintro d' e' ⟨ref, hd', he'⟩
      rw [hd₁] at hd'
      rw [he₁, ← h.table, ← h.limit] at he'
      exact ⟨_, hd'.trans (add_assoc _ _ _), he'.trans (add_assoc _ _ _)⟩
    rw [hrund, hrune, ← h.table, ← h.limit]
    rcases (d.toHpackDynTable.readRep d.protocolMaxSize (L.started acc) (b :: data)).1 with err | p
    · exact ⟨rfl, rfl, h₁, href _ _ ⟨0, rfl, rfl⟩⟩
    dsimp only
    obtain ⟨hacc, herr, hdec⟩ := L.round_alike acc h₁ p.1
    have hrd := L.round_ref acc d₁ p.1
    have hre := L.round_ref acc e₁ p.1
    generalize L.round acc d₁ p.1 = rd at hacc herr hdec hrd ⊢
    generalize L.round acc e₁ p.1 = re at hacc herr hdec hre ⊢
    obtain ⟨acc₁, err₁, _⟩ := rd
    obtain ⟨_, _, _⟩ := re
    subst hacc herr
    cases err₁ with
    | some err => exact ⟨rfl, rfl, hdec, href _ _ ⟨0, hrd, hre⟩⟩
    | none =>
      obtain ⟨ha, he, hd, ref, hrd', hre'⟩ := ih hdec acc₁ ((b :: data).drop p.2)
      rw [hrd] at hrd'
      rw [hre] at hre'
      exact ⟨ha, he, hd, href _ _ ⟨ref, hrd', hre'⟩⟩

theorem run_changed (L : FieldLoop σ) (fuel : ℕ) (h : d.CacheOk) (acc : σ) (data : Bytes) :
    ∃ k ≤ fuel, HpackDecoder.Changed k d (L.run hpackHashBytes fuel d acc data).dec := by
  induction fuel generalizing d acc data with
  | zero =>
    cases data with
    | nil | cons b data => rw [run]; exact ⟨0, le_rfl, .refl h⟩
  | succ fuel ih =>
    rcases data with _ | ⟨b, data⟩
    · rw [run]; exact ⟨0, Nat.zero_le _, .refl h⟩
    obtain ⟨d₁, ⟨_, _, hd₁⟩, hok, hrun⟩ := L.run_cons hpackHashBytes fuel h acc b data
    have h₁ : HpackDecoder.Changed 0 d d₁ := by
      rw [hd₁] at hok ⊢
      exact .touched hok
    rw [hrun]
    rcases (d.toHpackDynTable.readRep d.protocolMaxSize (L.started acc) (b :: data)).1 with err | p
    · exact ⟨0, Nat.zero_le _, h₁⟩
    dsimp only
    obtain ⟨j, _, hround⟩ : ∃ j ≤ 1, HpackDecoder.Changed j d₁ (L.round acc d₁ p.1).dec := by
      obtain heq | heq := L.round_dec acc d₁ p.1
      · rw [heq]; exact ⟨0, Nat.zero_le _, .refl hok⟩
      · rw [heq]; exact HpackDecoder.Changed.applyDecoder hok p.1
    generalize L.round acc d₁ p.1 = r at hround ⊢
    obtain ⟨acc₁, err₁, _⟩ := r
    cases err₁ with
    | some err => exact ⟨0 + j, by omega, h₁.trans hround⟩
    | none =>
      obtain ⟨k, _, hrest⟩ := ih hround.cache acc₁ ((b :: data).drop p.2)
      exact ⟨0 + j + k, by omega, (h₁.trans hround).trans hrest⟩

end FieldLoop
end

end AlosHttp.Hpack
