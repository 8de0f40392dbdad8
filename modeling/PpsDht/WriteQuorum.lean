import PpsDht.Network
import PpsDht.Lib.Quorum
import Mathlib.Data.Set.Basic

/-! `network_put` against the servers that really acknowledged. Its counter counts
accepted datagrams, so a duplicated acknowledgement is counted twice. -/
namespace PpsDht

open CLib Loop

theorem ack_eq_some_iff (servers : NodeList) (outcome : Option Datagram) (server : SockAddr) :
    ack servers outcome = some server ↔
      server ∈ servers.map Node.addr ∧ outcome = some ⟨server, []⟩ := by
  cases outcome with
  | none => simp [ack, accepted]
  | some datagram =>
    obtain ⟨peer, payload⟩ := datagram
    have empty : payload.take maxMsgElemSize = [] ↔ payload = [] := by
      simp [List.take_eq_nil_iff, maxMsgElemSize]
    by_cases known : peer ∈ servers.map Node.addr
    · simp only [ack, accepted, known, ↓reduceIte, Option.bind_some, empty]
      by_cases bare : payload = []
      · simp only [bare, ↓reduceIte, Option.some.injEq, Datagram.mk.injEq, and_true]
        exact ⟨fun same => ⟨same ▸ known, same⟩, And.right⟩
      · simp [bare]
    · simp only [ack, accepted, known, ↓reduceIte, Option.bind_none, reduceCtorEq, false_iff,
        Option.some.injEq, Datagram.mk.injEq, not_and]
      exact fun member same => absurd (same ▸ member) known

theorem mem_acks_iff (servers : NodeList) (outcomes : Inbox) (server : SockAddr) :
    server ∈ outcomes.filterMap (ack servers) ↔
      server ∈ servers.map Node.addr ∧ some ⟨server, []⟩ ∈ outcomes := by
  simp only [List.mem_filterMap, ack_eq_some_iff]
  constructor
  · rintro ⟨_, member, known, rfl⟩
    exact ⟨known, member⟩
  · rintro ⟨known, member⟩
    exact ⟨_, member, known, rfl⟩

/-- The loop ends at the acknowledgement that completes the count, or after all rounds. -/
theorem putLoop_cases (servers : NodeList) (W : UInt64) (rounds nbWrites : Nat) (inbox : Inbox)
    (before : nbWrites < W.toNat) :
    (W.toNat ≤ nbWrites + ((inbox.take rounds).filterMap (ack servers)).length ∧
        ∃ received rest, inbox = received ++ rest ∧
          putLoop servers W rounds nbWrites inbox = (.none, rest) ∧
          received.filterMap (ack servers) =
            ((inbox.take rounds).filterMap (ack servers)).take (W.toNat - nbWrites)) ∨
      nbWrites + ((inbox.take rounds).filterMap (ack servers)).length < W.toNat ∧
        putLoop servers W rounds nbWrites inbox = (.network, inbox.drop rounds) := by
  induction rounds generalizing nbWrites inbox with
  | zero => exact .inr ⟨by simpa using before, rfl⟩
  | succ rounds ih =>
    cases inbox with
    | nil => exact .inr ⟨by simpa using before, putLoop_nil _ _ _ _⟩
    | cons outcome inbox =>
      rw [putLoop_cons, List.take_succ_cons, List.drop_succ_cons]
      cases counted : ack servers outcome with
      | none =>
        simp only [List.filterMap_cons_none counted]
        rcases ih nbWrites inbox before with ⟨enough, received, rest, whole, ended, same⟩ | few
        · refine .inl ⟨enough, outcome :: received, rest, by rw [whole, List.cons_append], ended, ?_⟩
          rw [List.filterMap_cons_none counted, same]
        · exact .inr few
      | some server =>
        simp only [List.filterMap_cons_some counted, List.length_cons]
        by_cases reached : W.toNat ≤ nbWrites + 1
        · obtain last : W.toNat - nbWrites = 1 := by omega
          refine .inl ⟨by omega, [outcome], inbox, rfl, by simp only [reached, ↓reduceIte], ?_⟩
          rw [List.filterMap_cons_some counted, last]
          rfl
        · simp only [reached, ↓reduceIte]
          have left : W.toNat - nbWrites = (W.toNat - (nbWrites + 1)) + 1 := by omega
          rcases ih (nbWrites + 1) inbox (by omega) with
            ⟨enough, received, rest, whole, ended, same⟩ | ⟨few, ended⟩
          · refine .inl ⟨by omega, outcome :: received, rest, by rw [whole, List.cons_append],
              ended, ?_⟩
            rw [List.filterMap_cons_some counted, same, left, List.take_succ_cons]
          · exact .inr ⟨by omega, ended⟩

section Call

variable {sha1 : List UInt8 → Digest} {client : Client} {key value : CString} {fuel : Nat}
  {env : Env} {servers : NodeList}

/-- If the call succeeds, `W` different contacted servers have each sent an empty
acknowledgement, in every log of sent datagrams that accounts for the received ones. -/
def WritesQuorum (sha1 : List UInt8 → Digest) (client : Client) (key value : CString)
    (fuel : Nat) (env : Env) (servers : NodeList) (inbox : Inbox) : Prop :=
  ∀ received rest sent, inbox = received ++ rest →
    networkPut sha1 client key value fuel env inbox = .done (.none, sent, rest) →
    ∀ log : Set Datagram, (∀ d, some d ∈ received → d ∈ log) →
      ∃ quorum : List SockAddr, quorum.Nodup ∧ client.args.W.toNat ≤ quorum.length ∧
        ∀ server ∈ quorum, server ∈ servers.map Node.addr ∧ ⟨server, []⟩ ∈ log

/-- Success is only reported on a real quorum exactly when the acknowledgements that
complete the count come from different servers. -/
theorem network_put_writes_quorum_iff
    (contacted : Contacted sha1 client client.args.W key fuel env servers)
    (fits : value.strlen ≤ maxMsgElemSize) (one : 1 ≤ client.args.W.toNat) (inbox : Inbox) :
    WritesQuorum sha1 client key value fuel env servers inbox ↔
      (client.args.W.toNat ≤ (acks servers inbox).length →
        ((acks servers inbox).take client.args.W.toNat).Nodup) := by
  have called := networkPut_contacted inbox fits contacted
  rcases putLoop_cases servers client.args.W servers.length 0 inbox one with
    ⟨enough, received, rest, whole, ended, counted⟩ | ⟨few, ended⟩
  · rw [Nat.zero_add] at enough
    rw [Nat.sub_zero] at counted
    change client.args.W.toNat ≤ (acks servers inbox).length at enough
    change _ = (acks servers inbox).take _ at counted
    have full : ((acks servers inbox).take client.args.W.toNat).length = client.args.W.toNat := by
      rw [List.length_take]
      exact Nat.min_eq_left enough
    simp only [ended] at called
    constructor
    · intro real _
      obtain ⟨quorum, nodup, long, within⟩ :=
        real received rest _ whole called {d | some d ∈ received} fun _ member => member
      refine Quorum.nodup_of_covered nodup (fun server member => ?_) (full.le.trans long)
      rw [← counted]
      exact (mem_acks_iff servers received server).mpr (within server member)
    · intro different received' rest' sent whole' succeeded log accounts
      rw [called] at succeeded
      simp only [Outcome.done.injEq, Prod.mk.injEq, true_and] at succeeded
      obtain ⟨_, rfl⟩ := succeeded
      obtain rfl : received = received' := List.append_cancel_right (whole.symm.trans whole')
      refine ⟨_, different enough, full.ge, fun server member => ?_⟩
      rw [← counted] at member
      obtain ⟨known, delivered⟩ := (mem_acks_iff servers received server).mp member
      exact ⟨known, accounts _ delivered⟩
  · rw [Nat.zero_add] at few
    simp only [ended] at called
    refine ⟨fun _ enough => absurd few (Nat.not_lt.mpr enough), fun _ => ?_⟩
    intro _ _ _ _ succeeded
    rw [called] at succeeded
    simp at succeeded

end Call

theorem network_put_writes_pair :
    WritesQuorum (fun _ => Digest.ofFirst 7) pairClient CString.empty CString.empty 3
      ⟨true, [], []⟩ pair [some ⟨⟨2, 0⟩, []⟩, some ⟨⟨1, 0⟩, []⟩] :=
  (network_put_writes_quorum_iff pair_contacted (by decide) (by decide) _).mpr
    fun _ => by decide

/-- One server's acknowledgement, delivered twice, is taken for two servers'. -/
theorem network_put_counts_duplicate :
    ¬ ∀ (sha1 : List UInt8 → Digest) (client : Client) (key value : CString) (fuel : Nat)
        (env : Env) (servers : NodeList) (inbox : Inbox),
      Contacted sha1 client client.args.W key fuel env servers →
      value.strlen ≤ maxMsgElemSize → 1 ≤ client.args.W.toNat →
      WritesQuorum sha1 client key value fuel env servers inbox := by
  intro correct
  have real := correct _ _ CString.empty CString.empty _ _ _
    [some ⟨⟨1, 0⟩, []⟩, some ⟨⟨1, 0⟩, []⟩] pair_contacted (by decide) (by decide)
  obtain ⟨quorum, nodup, long, within⟩ := real _ [] _ (List.append_nil _).symm (by rfl)
    {⟨⟨1, 0⟩, []⟩} (by simp)
  -- the only logged datagram is that of the first server
  have single : ∀ server ∈ quorum, server ∈ [(⟨1, 0⟩ : SockAddr)] := by
    intro server member
    have logged := (within server member).2
    simp only [Set.mem_singleton_iff, Datagram.mk.injEq, and_true] at logged
    exact List.mem_singleton.mpr logged
  have few := Quorum.length_le_of_within nodup single
  have two : 2 ≤ quorum.length := long
  simp only [List.length_singleton] at few
  omega

end PpsDht
