import Aerion.Uot.Packets
import Aerion.Vmess.Packets

/-!
# The reader of a VMess UDP tunnel

The task that `open_vmess_udp_tunnel` spawns (`src/vmess.rs`): a loop around
an inner block that reads a packet of the server's response and sends it to
the SOCKS client.
-/

namespace Aerion.Vmess.Body

open Lib Net

variable {crypto : BodyCrypto} {r r' : BodyReader}

/-! ### What a call of the reader can do -/

/-- Bytes were taken from the stream. -/
def Shorter (r r' : BodyReader) : Prop := r'.inner.flatten.length < r.inner.flatten.length

theorem Aside.refl (r : BodyReader) : Aside r r :=
  { config := rfl, cipher := rfl, inner := List.suffix_rfl, counter := rfl, pending := rfl
    pendingPos := rfl, finished := rfl }

theorem keeps_shorter {α : Type} {x : Stateful BodyReader α}
    (hx : ∀ r', Stateful.Keeps (Aside r') x) : Stateful.Keeps (Shorter r) x := fun r' h =>
  Nat.lt_of_le_of_lt (hx r' r' (.refl r')).inner.length_le h

theorem readExact_shorter {n : ℕ} (hn : 0 < n) (message : String) :
    Stateful.Triple (· = r) (BodyReader.readExact n message) (fun _ => Shorter r) fun _ => True := by
  intro s hs
  rw [hs]
  refine ⟨fun bytes hread => ?_, fun _ => trivial⟩
  obtain ⟨hlen, hfront⟩ := Segments.readExact_some (Outcome.need_ok.mp hread)
  show (r.inner.readExact n).2.flatten.length < r.inner.flatten.length
  rw [hfront, List.length_append]
  omega

theorem readSize_shorter :
    Stateful.Triple (· = r) (BodyReader.readSize crypto) (fun _ => Shorter r) fun _ => True := by
  unfold BodyReader.readSize
  have hget : Stateful.Triple (· = r) (Stateful.get : Stateful BodyReader BodyReader)
      (fun a s => s = r ∧ a = r) fun _ => True := by
    rintro _ rfl
    exact ⟨fun a ha => ⟨rfl, (Outcome.ok.inj ha).symm⟩, fun _ => trivial⟩
  refine .bind hget fun r₀ => .of_and ?_
  rintro rfl
  refine .bind (readExact_shorter (sizeFieldLen_pos _) _) fun sizeBytes => ?_
  have hpad : Stateful.Keeps (Shorter r₀) (BodyReader.onState ChunkState.nextPaddingLen) :=
    keeps_shorter fun _ => onState_keeps nextPaddingLen_keeps
  have hdecode : Stateful.Keeps (Shorter r₀) (BodyReader.onState (ChunkState.decodeSize crypto sizeBytes)) :=
    keeps_shorter fun _ => onState_keeps (decodeSize_keeps sizeBytes)
  refine (Stateful.Triple.of_keeps ?_).mono (fun _ h => h) (fun _ _ h => h) fun _ _ => trivial
  split
  · refine .bind hpad fun early => .bind hdecode fun size => ?_
    exact .bind (.pure _) fun _ => .bind (.lift _) fun _ => .bind (.lift _) fun _ => .pure _
  · refine .bind (.pure _) fun early => .bind hdecode fun size => ?_
    exact .bind hpad fun _ => .bind (.lift _) fun _ => .bind (.lift _) fun _ => .pure _

theorem readNextChunk_shorter :
    Stateful.Triple (· = r) (BodyReader.readNextChunk crypto) (fun _ => Shorter r) fun _ => True := by
  unfold BodyReader.readNextChunk
  refine .bind readSize_shorter fun size => ?_
  refine (Stateful.Triple.of_keeps ?_).mono (fun _ h => h) (fun _ _ h => h) fun _ _ => trivial
  have hput : ∀ f : BodyReader → BodyReader, (∀ r, (f r).inner = r.inner) →
      Stateful.Keeps (Shorter r) (BodyReader.put f) := fun f hf r' h => by
    show (f r').inner.flatten.length < _
    rw [hf]
    exact h
  refine .bind (hput _ fun _ => rfl) fun _ => ?_
  refine .bind (keeps_shorter fun _ => readSome_keeps _ _) fun payload => ?_
  refine .bind (keeps_shorter fun _ => readSome_keeps _ _) fun _ => ?_
  refine .bind (fun r' h => h) fun plaintext => hput _ fun r => ?_
  unfold BodyReader.accept
  split <;> rfl

/-- Nothing is left of the body; the reader answers `None` from now on. -/
structure Exhausted (r : BodyReader) : Prop where
  chunked : r.state.rawMode = false
  taken : r.pending.drop r.pendingPos = []
  finished : r.finished = true

theorem Exhausted.readPacket (h : Exhausted r) : BodyReader.readPacket crypto r = (.ok none, r) := by
  rw [readPacket_eq h.chunked, if_pos h.taken, if_pos h.finished]

theorem readPacket_cases (crypto : BodyCrypto) (r : BodyReader) :
    (∃ r', BodyReader.readPacket crypto r = (.ok none, r') ∧ Exhausted r') ∨
    (∃ payload r', BodyReader.readPacket crypto r = (.ok (some payload), r') ∧ Shorter r r') ∨
    ∀ value, (BodyReader.readPacket crypto r).1 ≠ .ok value := by
  by_cases hraw : r.state.rawMode = true
  · have hrun : BodyReader.readPacket crypto r = (.err "VMess packet transfer requires chunk stream", r) := by
      unfold BodyReader.readPacket
      refine (Stateful.run_bind rfl).trans ?_
      rw [hraw]
      rfl
    exact .inr (.inr fun value => by rw [hrun]; nofun)
  rw [Bool.not_eq_true] at hraw
  rw [readPacket_eq hraw]
  split
  · rename_i htaken
    split
    · rename_i hfinished
      exact .inl ⟨r, rfl, hraw, htaken, hfinished⟩
    · rename_i hfinished
      rw [Bool.not_eq_true] at hfinished
      by_cases hok : (BodyReader.readNextChunk crypto r.clearPending).1 = .ok ()
      · obtain ⟨payload, plaintext, haccepted⟩ :=
          (readNextChunk_triple (r := r.clearPending) rfl _ (.refl _)).1 () hok
        have hshorter := (@readNextChunk_shorter crypto r.clearPending _ rfl).1 () hok
        rw [Stateful.run_bind (Prod.ext hok rfl)]
        unfold BodyReader.takePacket
        split
        · rename_i hend
          refine .inl ⟨_, rfl, ?_, ?_, hend⟩
          · unfold ChunkState.rawMode
            rw [haccepted.config]
            exact hraw
          · have hempty := haccepted.finished
            rw [hend, show r.clearPending.finished = false from hfinished, Bool.false_or] at hempty
            rw [haccepted.pending, (of_decide_eq_true hempty.symm).2, List.drop_nil]
        · exact .inr (.inl ⟨_, _, rfl, hshorter⟩)
      · obtain ⟨-, hfail⟩ := Stateful.run_bind_fail (f := fun _ => BodyReader.takePacket)
          fun u hu => hok hu
        exact .inr (.inr hfail)
  · exact .inr (.inr nofun)

/-! ### The task -/

/-- What one turn of the loop finds: the peer of the SOCKS client, and whether `send_to` succeeds. -/
structure Turn where
  peer : Option SocketAddr
  sends : Bool
  deriving DecidableEq, Repr

structure ReaderTask where
  reader : BodyReader
  ended : Bool
  sent : List (SocketAddr × Bytes)

def respond (source : ProxyTarget) (env : Turn) (payload : Bytes) : Outcome (SocketAddr × Bytes) := do
  let peer ← Outcome.need env.peer "SOCKS UDP peer is not known yet"
  let response ← Uot.encodeSocksUdpPacket source payload
  Outcome.ensure env.sends "send VMess UDP response"
  return (peer, response)

namespace ReaderTask

variable (crypto : BodyCrypto) (source : ProxyTarget)

/-- One turn of the loop. At the end of the body the inner block returns `Ok` and the loop goes on. -/
def turn (env : Turn) (t : ReaderTask) : ReaderTask :=
  match BodyReader.readPacket crypto t.reader with
  | (.ok none, reader) => { t with reader }
  | (.ok (some payload), reader) =>
    match respond source env payload with
    | .ok datagram => { t with reader, sent := t.sent ++ [datagram] }
    | _ => { t with reader, ended := true }
  | (_, reader) => { t with reader, ended := true }

/-- The task after `n` turns; a task that has ended makes none. -/
def run (envs : ℕ → Turn) (reader : BodyReader) : ℕ → ReaderTask
  | 0 => ⟨reader, false, []⟩
  | n + 1 =>
    if (run envs reader n).ended then run envs reader n
    else turn crypto source (envs n) (run envs reader n)

end ReaderTask

/-- What the `n`-th call of `read_packet` returns, and the reader before it. -/
def packetRead (crypto : BodyCrypto) (r : BodyReader) : ℕ → Outcome (Option Bytes) :=
  callResult (fun _ : Unit => BodyReader.readPacket crypto) (fun _ => ()) r

def readerBefore (crypto : BodyCrypto) (r : BodyReader) : ℕ → BodyReader :=
  readerAfter (fun _ : Unit => BodyReader.readPacket crypto) (fun _ => ()) r

/-- The `n`-th call returns a packet and the SOCKS client gets it. -/
def Delivers (crypto : BodyCrypto) (source : ProxyTarget) (envs : ℕ → Turn) (r : BodyReader) (n : ℕ) : Prop :=
  ∃ payload, packetRead crypto r n = .ok (some payload) ∧
    ∃ datagram, respond source (envs n) payload = .ok datagram

/-- Behind packets that were all delivered the body ends as `finish` ends it. -/
def EndsCleanly (crypto : BodyCrypto) (source : ProxyTarget) (envs : ℕ → Turn) (r : BodyReader) : Prop :=
  ∃ k, (∀ i < k, Delivers crypto source envs r i) ∧ packetRead crypto r k = .ok none

section

variable {source : ProxyTarget} {envs : ℕ → Turn}

theorem run_delivering {n : ℕ} (h : ∀ i < n, Delivers crypto source envs r i) :
    (ReaderTask.run crypto source envs r n).reader = readerBefore crypto r n ∧
      (ReaderTask.run crypto source envs r n).ended = false := by
  induction n with
  | zero => exact ⟨rfl, rfl⟩
  | succ n ih =>
    obtain ⟨hreader, hended⟩ := ih fun i hi => h i (Nat.lt_succ_of_lt hi)
    obtain ⟨payload, hread, datagram, hdatagram⟩ := h n (Nat.lt_succ_self n)
    have hcall : BodyReader.readPacket crypto (ReaderTask.run crypto source envs r n).reader =
        (.ok (some payload), readerBefore crypto r (n + 1)) := by
      rw [hreader]
      exact Prod.ext hread rfl
    simp [ReaderTask.run, hended, ReaderTask.turn, hcall, hdatagram]

theorem run_none {n : ℕ} (hended : (ReaderTask.run crypto source envs r n).ended = false)
    (hnone : (BodyReader.readPacket crypto (ReaderTask.run crypto source envs r n).reader).1 = .ok none) :
    Exhausted (ReaderTask.run crypto source envs r (n + 1)).reader ∧
      (ReaderTask.run crypto source envs r (n + 1)).ended = false := by
  rcases readPacket_cases crypto (ReaderTask.run crypto source envs r n).reader with
    ⟨reader, hcall, hexhausted⟩ | ⟨payload, reader, hcall, -⟩ | hfail
  · have hrun : ReaderTask.run crypto source envs r (n + 1) =
        { ReaderTask.run crypto source envs r n with reader } := by
      rw [ReaderTask.run, hended, if_neg Bool.false_ne_true, ReaderTask.turn, hcall]
    rw [hrun]
    exact ⟨hexhausted, hended⟩
  · rw [hcall] at hnone
    cases hnone
  · exact absurd hnone (hfail none)

theorem run_spins (h : EndsCleanly crypto source envs r) (n : ℕ) :
    (ReaderTask.run crypto source envs r n).ended = false := by
  obtain ⟨k, hbefore, hnone⟩ := h
  rcases Nat.lt_or_ge k n with hlt | hge
  · obtain ⟨m, rfl⟩ := Nat.exists_eq_add_of_lt hlt
    suffices hspin : Exhausted (ReaderTask.run crypto source envs r (k + m + 1)).reader ∧
        (ReaderTask.run crypto source envs r (k + m + 1)).ended = false from hspin.2
    induction m with
    | zero =>
      obtain ⟨hreader, hended⟩ := run_delivering hbefore
      exact run_none hended (by rw [hreader]; exact hnone)
    | succ m ih =>
      obtain ⟨hexhausted, hended⟩ := ih (by omega)
      exact run_none hended (congrArg Prod.fst hexhausted.readPacket)
  · exact (run_delivering fun i hi => hbefore i (Nat.lt_of_lt_of_le hi hge)).2

theorem delivers_of_endless (hclean : ¬EndsCleanly crypto source envs r)
    (hendless : ∀ n, (ReaderTask.run crypto source envs r n).ended = false) (n : ℕ) :
    ∀ i < n, Delivers crypto source envs r i := by
  induction n with
  | zero => exact fun i hi => absurd hi (Nat.not_lt_zero i)
  | succ n ih =>
    have hreader := (run_delivering ih).1
    have hnext := hendless (n + 1)
    rw [ReaderTask.run, hendless n, if_neg Bool.false_ne_true, ReaderTask.turn, hreader] at hnext
    intro i hi
    rcases Nat.lt_succ_iff_lt_or_eq.mp hi with hi | rfl
    · exact ih i hi
    rcases readPacket_cases crypto (readerBefore crypto r i) with
      ⟨reader, hcall, -⟩ | ⟨payload, reader, hcall, -⟩ | hfail
    · exact absurd ⟨i, ih, congrArg Prod.fst hcall⟩ hclean
    · rw [hcall] at hnext
      refine ⟨payload, congrArg Prod.fst hcall, ?_⟩
      dsimp only at hnext
      split at hnext
      · exact ⟨_, ‹_›⟩
      · cases hnext
    · split at hnext
      · exact absurd (congrArg Prod.fst ‹_›) (hfail none)
      · exact absurd (congrArg Prod.fst ‹_›) (hfail _)
      · cases hnext

theorem delivered_length {n : ℕ} (h : ∀ i < n, Delivers crypto source envs r i) :
    (readerBefore crypto r n).inner.flatten.length + n ≤ r.inner.flatten.length := by
  induction n with
  | zero => exact Nat.le_refl _
  | succ n ih =>
    have hbefore := ih fun i hi => h i (Nat.lt_succ_of_lt hi)
    obtain ⟨payload, hread, -⟩ := h n (Nat.lt_succ_self n)
    rcases readPacket_cases crypto (readerBefore crypto r n) with
      ⟨reader, hcall, -⟩ | ⟨_, reader, hcall, hshorter⟩ | hfail
    · exact absurd ((congrArg Prod.fst hcall).symm.trans hread) nofun
    · have hnext : readerBefore crypto r (n + 1) = reader := congrArg Prod.snd hcall
      rw [hnext]
      unfold Shorter at hshorter
      omega
    · exact absurd hread (hfail _)

/-- The reader task of a UDP tunnel ends, whatever the server's response and the SOCKS client do,
unless the response ends cleanly behind packets that were delivered; then it never does. -/
theorem reader_task_ends_iff (crypto : BodyCrypto) (config : BodyConfig) (source : ProxyTarget)
    (envs : ℕ → Turn) (response : Segments) :
    (∃ n, (ReaderTask.run crypto source envs (.new crypto response config) n).ended = true) ↔
      ¬EndsCleanly crypto source envs (.new crypto response config) := by
  constructor
  · rintro ⟨n, hended⟩ hclean
    rw [run_spins hclean n] at hended
    cases hended
  · intro hclean
    by_contra hendless
    have hrunning : ∀ n, (ReaderTask.run crypto source envs (.new crypto response config) n).ended = false :=
      fun n => Bool.not_eq_true _ ▸ fun hended => hendless ⟨n, hended⟩
    have hlength := delivered_length (delivers_of_endless hclean hrunning (response.flatten.length + 1))
    have hstart : (BodyReader.new crypto response config).inner.flatten.length = response.flatten.length := rfl
    omega

def emptyResponse : Segments := [(BodyWriter.finish taggedCrypto plainWriter).2.inner]

theorem finished_response_spins :
    EndsCleanly taggedCrypto (.ip ⟨.v4 1 1 1 1, 53⟩) (fun _ => ⟨some ⟨.v4 127 0 0 1, 9⟩, true⟩)
        (.new taggedCrypto emptyResponse plainConfig) ∧
      ¬∃ n, (ReaderTask.run taggedCrypto (.ip ⟨.v4 1 1 1 1, 53⟩) (fun _ => ⟨some ⟨.v4 127 0 0 1, 9⟩, true⟩)
        (.new taggedCrypto emptyResponse plainConfig) n).ended = true := by
  have hclean : EndsCleanly taggedCrypto (.ip ⟨.v4 1 1 1 1, 53⟩)
      (fun _ => ⟨some ⟨.v4 127 0 0 1, 9⟩, true⟩) (.new taggedCrypto emptyResponse plainConfig) :=
    ⟨0, nofun, by decide +kernel⟩
  refine ⟨hclean, ?_⟩
  rintro ⟨n, hended⟩
  rw [run_spins hclean n] at hended
  cases hended

end

end Aerion.Vmess.Body
