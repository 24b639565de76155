import Aerion.Vmess.Server

/-!
# Freshness of VMess requests

The comparison of a timestamp with the clock is exact unless the difference
leaves the signed word or is the least word.
-/

namespace Aerion.Vmess

open Lib Net Outcome

variable {crypto : Crypto} {mode : Overflow} {config : Config}

/-! ### The comparison -/

/-- The difference, and its absolute value, are signed words. -/
def Comparable (timestamp now : ℤ) : Prop := -2 ^ 63 < timestamp - now ∧ timestamp - now < 2 ^ 63

instance (timestamp now : ℤ) : Decidable (Comparable timestamp now) :=
  inferInstanceAs (Decidable (_ ∧ _))

theorem isFresh_of_comparable {timestamp now : ℤ} (h : Comparable timestamp now) :
    isFresh mode timestamp now = .ok (decide (|timestamp - now| ≤ 120)) := by
  have habs : |timestamp - now| < 2 ^ 63 := abs_lt.mpr h
  have hfits : FitsI64 |timestamp - now| :=
    ⟨(show (-2 ^ 63 : ℤ) ≤ 0 by decide).trans (abs_nonneg _), habs⟩
  unfold isFresh subI64 absI64
  rw [signedResult_fits ⟨h.1.le, h.2⟩, ok_bind, signedResult_fits hfits]
  rfl

theorem isFresh_checked_panics {timestamp now : ℤ} (h : ¬Comparable timestamp now) :
    isFresh .checked timestamp now = .panic := by
  unfold isFresh subI64
  by_cases hfits : FitsI64 (timestamp - now)
  · have hmin : timestamp - now = -2 ^ 63 := by
      by_contra hne
      exact h ⟨lt_of_le_of_ne hfits.1 (Ne.symm hne), hfits.2⟩
    rw [signedResult_fits hfits, ok_bind, absI64, hmin, signedResult_checked (by decide)]
    rfl
  · rw [signedResult_checked hfits]
    rfl

theorem fresh_comparison_iff (timestamp now : ℤ) :
    (isFresh .checked timestamp now ≠ .panic ∧
      ∀ mode, isFresh mode timestamp now = .ok true → |timestamp - now| ≤ 120) ↔
    Comparable timestamp now := by
  constructor
  · rintro ⟨hpanic, -⟩
    by_contra h
    exact hpanic (isFresh_checked_panics h)
  · intro h
    refine ⟨by rw [isFresh_of_comparable h]; nofun, fun mode htrue => ?_⟩
    rw [isFresh_of_comparable h] at htrue
    exact of_decide_eq_true (Outcome.ok.inj htrue)

/-! ### Reading does not panic -/

theorem readVmessAddressSync_ne_panic {data : Bytes} : readVmessAddressSync data ≠ .panic := by
  refine ensure_bind_ne_panic fun hlen => ?_
  have hlen := of_decide_eq_true hlen
  refine (index_meets (by omega)).bind_ne_panic fun high _ => ?_
  refine (index_meets (by omega)).bind_ne_panic fun low _ => ?_
  refine (index_meets (by omega)).bind_ne_panic fun kind _ => ?_
  split
  · refine ensure_bind_ne_panic fun hlen => ?_
    have hlen := of_decide_eq_true hlen
    refine (slice_meets (by omega) hlen).bind_ne_panic fun octets hoctets => ?_
    have hlength : octets.length = 4 := by
      rw [hoctets, List.length_drop, List.length_take]
      omega
    obtain ⟨ip, hip⟩ := IpAddr.ofOctets_isSome (.inl hlength)
    rw [hip]
    nofun
  · refine ensure_bind_ne_panic fun hlen => ?_
    have hlen := of_decide_eq_true hlen
    refine (slice_meets (by omega) hlen).bind_ne_panic fun octets hoctets => ?_
    have hlength : octets.length = 16 := by
      rw [hoctets, List.length_drop, List.length_take]
      omega
    obtain ⟨ip, hip⟩ := IpAddr.ofOctets_isSome (.inr hlength)
    rw [hip]
    nofun
  · refine ensure_bind_ne_panic fun hlen => ?_
    have hlen := of_decide_eq_true hlen
    refine (index_meets (by omega)).bind_ne_panic fun length _ => ensure_bind_ne_panic fun hin => ?_
    have hin := of_decide_eq_true hin
    refine (slice_meets (by omega) hin).bind_ne_panic fun host _ => ?_
    exact bind_ne_panic (need_ne_panic _ _) fun _ _ => nofun
  · nofun

theorem fromRaw_ne_panic {raw : UInt8} : SecurityType.fromRaw raw ≠ .panic := by
  unfold SecurityType.fromRaw
  split <;> nofun

theorem readTarget_ne_panic {command : UInt8} {data : Bytes} : readTarget command data ≠ .panic := by
  unfold readTarget
  split
  · nofun
  · exact readVmessAddressSync_ne_panic

theorem parseVmessHeader_ne_panic {header : Bytes} : parseVmessHeader header ≠ .panic := by
  refine ensure_bind_ne_panic fun hlen => ?_
  have hlen := of_decide_eq_true hlen
  refine (index_meets (by omega)).bind_ne_panic fun version _ => ensure_bind_ne_panic fun _ => ?_
  refine (slice_meets (by omega) (by omega)).bind_ne_panic fun checked _ => ?_
  refine (slice_meets (by omega) le_rfl).bind_ne_panic fun checksum _ => ?_
  refine ensure_bind_ne_panic fun _ => ?_
  refine (slice_meets (by omega) (by omega)).bind_ne_panic fun iv _ => ?_
  refine (slice_meets (by omega) (by omega)).bind_ne_panic fun key _ => ?_
  refine (index_meets (by omega)).bind_ne_panic fun response _ => ?_
  refine (index_meets (by omega)).bind_ne_panic fun options _ => ensure_bind_ne_panic fun _ => ?_
  refine (index_meets (by omega)).bind_ne_panic fun packed _ => ?_
  refine bind_ne_panic fromRaw_ne_panic fun security _ => ?_
  refine (index_meets (by omega)).bind_ne_panic fun reserved _ => ensure_bind_ne_panic fun _ => ?_
  refine (index_meets (by omega)).bind_ne_panic fun command _ => ensure_bind_ne_panic fun _ => ?_
  refine (slice_meets (by omega) le_rfl).bind_ne_panic fun rest _ => ?_
  exact bind_ne_panic readTarget_ne_panic fun _ _ => ensure_bind_ne_panic fun _ => nofun

theorem decryptAesGcm_ne_panic {key nonce ciphertext aad : Bytes} :
    decryptAesGcm crypto key nonce ciphertext aad ≠ .panic :=
  ensure_bind_ne_panic fun _ => need_ne_panic _ _

theorem openVmessAeadHeader_ne_panic {cmdKey authId stream : Bytes} :
    openVmessAeadHeader crypto cmdKey authId stream ≠ .panic := by
  simp only [openVmessAeadHeader, ne_eq, Reader.bind_panic, readExact_panic, Reader.lift_panic,
    decryptAesGcm_ne_panic, ensure_panic, false_or, not_exists, not_and, not_false_eq_true,
    implies_true]

theorem readHeader_ne_panic {p : Pending} {at_ : Instant} : readHeader crypto p at_ ≠ .panic :=
  bind_ne_panic openVmessAeadHeader_ne_panic fun _ _ =>
    bind_ne_panic parseVmessHeader_ne_panic fun _ _ => nofun

end Aerion.Vmess
