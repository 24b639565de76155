import Aerion.Uot.Packets

/-!
# Targets as they are written

`encode_target` of `src/protocol.rs` writes the canonical form of a target in
the SOCKS format.
-/

namespace Aerion.Uot

open Lib Lib.Outcome Net

/-! ### Addresses -/

def canonicalTarget : ProxyTarget → ProxyTarget
  | .ip addr => .ip (canonicalizeSocketAddr addr)
  | .domain host port => .domain host port

theorem canonicalizeSocketAddr_port (addr : SocketAddr) :
    (canonicalizeSocketAddr addr).port = addr.port := by
  unfold canonicalizeSocketAddr
  split <;> rfl

theorem encodeTarget_eq {target : ProxyTarget} (h : hostLength target ≤ 255) :
    encodeTarget target = .ok (targetBytes (canonicalTarget target)) := by
  cases target with
  | ip addr =>
    simp only [encodeTarget, canonicalTarget, ← canonicalizeSocketAddr_port addr]
    obtain ⟨ip, port⟩ := canonicalizeSocketAddr addr
    cases ip <;> rfl
  | domain host port =>
    have hhost : decide ((hostBytes host).length ≤ 255) = true := decide_eq_true h
    simp only [encodeTarget, ensure_pos hhost]
    rfl

end Aerion.Uot
