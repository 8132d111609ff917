import AlosHttp.Quic.PeerCids
import AlosHttp.Quic.Varint

/-! The packet numbers and the sizes of the packets that the server builds. -/
namespace AlosHttp.Quic

def quicAEADTagLen : ℕ := 16
def quicMinPNLen : ℕ := 1
def quicMaxPNLen : ℕ := 4
def quicConnIDLen : ℕ := 8
def quicMinInitialDatagram : ℕ := 1200
def quicPathProbeDatagram : ℕ := quicMinInitialDatagram
def quicAmplificationFactor : ℕ := 3
def quicHPMinPNAndPayload : ℕ := 4
def quicShortHeaderMaxOverhead : ℕ := 1 + quicMaxCIDLen + quicMaxPNLen + quicAEADTagLen

def quicPacketNumberLen (pn : ℕ) (largestAcked : ℤ) : ℕ :=
  let numUnacked := (((pn : ℤ) - largestAcked) % 2 ^ 64).toNat
  if numUnacked < 0x80 then 1
  else if numUnacked < 0x8000 then 2
  else if numUnacked < 0x800000 then 3
  else 4

def quicEncodePacketNumber (pn : ℕ) (largestAcked : ℤ) : ℕ × ℕ :=
  let length := quicPacketNumberLen pn largestAcked
  (pn % 2 ^ (8 * length), length)

/-- No sum reaches `2 ^ 64`: `largestRecvPN` is an `int64` of at least -1. -/
def quicDecodePacketNumber (truncated truncatedLen : ℕ) (largestRecvPN : ℤ) : ℕ :=
  let expectedPN := ((largestRecvPN + 1) % 2 ^ 64).toNat
  let pnWin := 2 ^ (8 * truncatedLen)
  let pnHalf := pnWin / 2
  let candidate := pnWin * (expectedPN / pnWin) ||| truncated
  if candidate + pnHalf ≤ expectedPN ∧ candidate < 2 ^ 62 - pnWin then candidate + pnWin
  else if candidate > expectedPN + pnHalf ∧ candidate ≥ pnWin then candidate - pnWin
  else candidate

/-- A packet number and a payload, which is padded for header protection. -/
def protectedLen (payload pn : ℕ) (largestAcked : ℤ) : ℕ :=
  max (quicPacketNumberLen pn largestAcked + payload) quicHPMinPNAndPayload + quicAEADTagLen

def quicShortPacketLen (dcidLen payload pn : ℕ) (largestAcked : ℤ) : ℕ :=
  1 + dcidLen + protectedLen payload pn largestAcked

/-- The size of what `quicBuildInitialPacket` builds, without a token. -/
def quicInitialPacketLen (dcidLen scidLen payload pn : ℕ) (largestAcked : ℤ) : ℕ :=
  1 + 4 + 1 + dcidLen + 1 + scidLen + (quicAppendVarint 0).length +
    (quicAppendVarint (protectedLen payload pn largestAcked)).length + protectedLen payload pn largestAcked

theorem quicPacketNumberLen_bounds (pn : ℕ) (largestAcked : ℤ) :
    quicMinPNLen ≤ quicPacketNumberLen pn largestAcked ∧ quicPacketNumberLen pn largestAcked ≤ quicMaxPNLen := by
  unfold quicPacketNumberLen quicMinPNLen quicMaxPNLen
  dsimp only
  split_ifs <;> omega

/-- A packet number is read back within half the window of its length around the next one expected,
the lower end of the window apart. -/
theorem packetNumber_round_trip {pn : ℕ} {a r : ℤ} (hpn : pn < 2 ^ 62) (hr : -1 ≤ r)
    (hlow : r + 1 - 2 ^ (8 * (quicEncodePacketNumber pn a).2) / 2 < pn)
    (hhigh : pn ≤ r + 1 + 2 ^ (8 * (quicEncodePacketNumber pn a).2) / 2) :
    quicDecodePacketNumber (quicEncodePacketNumber pn a).1 (quicEncodePacketNumber pn a).2 r = pn := by
  obtain ⟨hmin, hmax⟩ := quicPacketNumberLen_bounds pn a
  unfold quicMinPNLen at hmin
  unfold quicMaxPNLen at hmax
  unfold quicEncodePacketNumber at hlow hhigh ⊢
  unfold quicDecodePacketNumber
  dsimp only at hlow hhigh ⊢
  rw [← Nat.two_pow_add_eq_or_of_lt (Nat.mod_lt _ (Nat.two_pow_pos _))]
  generalize quicPacketNumberLen pn a = length at hmin hmax hlow hhigh ⊢
  interval_cases length <;> norm_num at hlow hhigh ⊢ <;> split_ifs <;> omega

theorem packetNumber_round_trip_max :
    quicDecodePacketNumber (quicEncodePacketNumber (2 ^ 62 - 1) (2 ^ 62 - 2)).1 1 (2 ^ 62 - 2) = 2 ^ 62 - 1 :=
  packetNumber_round_trip (a := 2 ^ 62 - 2) (by decide) (by decide) (by decide) (by decide)

/-- The number at half a window below the next one expected is read as one of the next window. -/
theorem packetNumber_window_end :
    quicEncodePacketNumber 1 0 = (1, 1) ∧ (1 : ℤ) = 128 + 1 - 2 ^ 8 / 2 ∧ quicDecodePacketNumber 1 1 128 = 257 := by
  decide

end AlosHttp.Quic
