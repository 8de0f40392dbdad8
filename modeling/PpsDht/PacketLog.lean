import PpsDht.Cluster
import PpsDht.Listing

/-! The packet log that `log-packets.c` writes when it stands in front of `sendto`. Whoever
reads it can tell what was sent, by whom and to whom, and what was asked of the servers. -/
namespace PpsDht

open CLib Code

/-- A call of `sendto`: the address its socket is bound to, where it goes, and its bytes. -/
structure Logged where
  source : SockAddr
  destination : SockAddr
  message : List UInt8
  deriving DecidableEq

/-- A digit of `%02X` -/
def upperDigit (n : Nat) : UInt8 := if n < 10 then UInt8.ofNat (48 + n) else UInt8.ofNat (55 + n)

/-- `" %02X"` -/
def loggedByte (byte : UInt8) : List UInt8 :=
  [32] ++ [upperDigit (byte.toNat / 16), upperDigit (byte.toNat % 16)]

def loggedPort (port : UInt16) : List UInt8 := Decimal.print (ntohs port).toNat

/-- The line of the log: `"%s %d"`, `" %s %d"`, the bytes and a line feed. -/
def Logged.text (logged : Logged) : List UInt8 :=
  (inetNtop logged.source.sinAddr ++ [32]) ++ ((loggedPort logged.source.sinPort ++ [32]) ++
    ((inetNtop logged.destination.sinAddr ++ [32]) ++
      (loggedPort logged.destination.sinPort ++ (logged.message.flatMap loggedByte ++ [10]))))

def packetLog (log : List Logged) : List UInt8 := log.flatMap Logged.text

def Logged.fields (logged : Logged) : UInt32 × UInt16 × UInt32 × UInt16 × List UInt8 :=
  (logged.source.sinAddr, logged.source.sinPort, logged.destination.sinAddr,
    logged.destination.sinPort, logged.message)

theorem Logged.fields_injective : Function.Injective Logged.fields := by
  rintro ⟨⟨_, _⟩, ⟨_, _⟩, _⟩ ⟨⟨_, _⟩, ⟨_, _⟩, _⟩ same
  simp_all [fields]

theorem upperDigit_injective {m n : Nat} (small : m < 16) (small' : n < 16)
    (same : upperDigit m = upperDigit n) : m = n := by
  have injective : ∀ m < 16, ∀ n < 16, upperDigit m = upperDigit n → m = n := by decide
  exact injective m small n small' same

theorem unambiguous_loggedByte : Unambiguous loggedByte := by
  refine unambiguous_of_length (n := 3) (fun _ => rfl) fun a b same => ?_
  have bound := a.toNat_lt
  have bound' := b.toNat_lt
  simp only [loggedByte, List.cons_append, List.nil_append, List.cons.injEq, and_true, true_and] at same
  have high := upperDigit_injective (by omega) (by omega) same.1
  have low := upperDigit_injective (by omega) (by omega) same.2
  apply UInt8.toNat_inj.mp
  omega

theorem loggedPort_injective : Function.Injective loggedPort := by
  intro a b same
  have swapped := UInt16.toNat_inj.mp (Decimal.print_injective same)
  exact Function.LeftInverse.injective ntohs_htons swapped

theorem unambiguous_logged : Unambiguous Logged.text := by
  have address : Unambiguous fun address => inetNtop address ++ [32] :=
    unambiguous_of_terminated blank_notMem_inetNtop inetNtop_injective
  have port : Unambiguous fun port => loggedPort port ++ [32] :=
    unambiguous_of_terminated (fun port => blank_notMem_print _) loggedPort_injective
  have row : Unambiguous fun message : List UInt8 => message.flatMap loggedByte ++ [10] :=
    unambiguous_row unambiguous_loggedByte fun _ => ⟨32, rfl, by decide⟩
  -- the last port ends at the first byte that is no digit
  have last : Unambiguous fun fields : UInt16 × List UInt8 =>
      loggedPort fields.1 ++ (fields.2.flatMap loggedByte ++ [10]) := by
    refine unambiguous_before (fun byte => !Decimal.isDigit byte) (fun port byte member => ?_)
      (fun message => ?_) loggedPort_injective row
    · rw [Decimal.print_digits _ byte member]
      rfl
    · cases message with
      | nil => exact ⟨10, rfl, by decide⟩
      | cons byte message => exact ⟨32, rfl, by decide⟩
  intro a b x y same
  exact Logged.fields_injective
    ((address.append (port.append (address.append last))) a.fields b.fields x y same)

theorem packetLog_injective : Function.Injective packetLog :=
  flatMap_injective unambiguous_logged fun logged => by simp [Logged.text]

/-! What was asked. -/

theorem putMessage_ne_getMessage (key value other : CString) :
    putMessage key value ≠ getMessage other := by
  intro same
  have nul : (0 : UInt8) ∈ getMessage other := by
    rw [← same, putMessage]
    simp
  exact other.nulFree nul

theorem message_injective : Function.Injective Operation.message := by
  intro a b same
  cases a with
  | get key =>
    cases b with
    | get other => rw [CString.ext (s := key) (t := other) same]
    | put other value => exact absurd same.symm (putMessage_ne_getMessage other value key)
  | put key value =>
    cases b with
    | get other => exact absurd same (putMessage_ne_getMessage key value other)
    | put other value' =>
      obtain ⟨rfl, values⟩ := CString.append_nul_inj.mp same
      rw [CString.ext values]

namespace Cluster

/-- The datagram is not taken for a ping or for the request of a dump. -/
def Message.Plain : Message → Prop
  | .call operation => operation.message ≠ [] ∧ operation.message ≠ [0]
  | _ => True

theorem Message.payload_injOn {a b : Message} (plain : a.Plain) (plain' : b.Plain)
    (same : a.payload = b.payload) : a = b := by
  cases a with
  | alive =>
    cases b with
    | alive => rfl
    | dump => exact absurd same (by decide)
    | call operation => exact absurd same.symm plain'.1
  | dump =>
    cases b with
    | alive => exact absurd same (by decide)
    | dump => rfl
    | call operation => exact absurd same.symm plain'.2
  | call operation =>
    cases b with
    | alive => exact absurd same plain.1
    | dump => exact absurd same plain.2
    | call other => rw [message_injective same]

/-- A request, with the address of the socket that it is sent through. -/
structure Asked where
  client : SockAddr
  server : SockAddr
  message : Message
  deriving DecidableEq

def Asked.logged (asked : Asked) : Logged := ⟨asked.client, asked.server, asked.message.payload⟩

theorem Asked.logged_inj {a b : Asked} (plain : a.message.Plain) (plain' : b.message.Plain)
    (same : a.logged = b.logged) : a = b := by
  obtain ⟨client, server, message⟩ := a
  obtain ⟨client', server', message'⟩ := b
  simp only [logged, Logged.mk.injEq] at same
  obtain ⟨rfl, rfl, payloads⟩ := same
  obtain rfl : message = message' := Message.payload_injOn plain plain' payloads
  rfl

/-- The log tells who has asked which server for what, in which order. -/
theorem packet_log_tells {first second : List Asked}
    (plain : ∀ asked ∈ first, asked.message.Plain) (plain' : ∀ asked ∈ second, asked.message.Plain)
    (same : packetLog (first.map Asked.logged) = packetLog (second.map Asked.logged)) :
    first = second := by
  have logged := packetLog_injective same
  clear same
  induction first generalizing second with
  | nil => exact (List.map_eq_nil_iff.mp logged.symm).symm
  | cons asked first ih =>
    cases second with
    | nil => simp at logged
    | cons other second =>
      obtain ⟨head, tail⟩ := List.cons.inj logged
      obtain ⟨here, later⟩ := List.forall_mem_cons.mp plain
      obtain ⟨here', later'⟩ := List.forall_mem_cons.mp plain'
      rw [Asked.logged_inj here here' head, ih later later' tail]

theorem packet_log_tells_apart :
    packetLog [Asked.logged ⟨⟨1, 0⟩, ⟨2, 0⟩, .call getKey⟩] ≠
      packetLog [Asked.logged ⟨⟨1, 0⟩, ⟨2, 0⟩, .call putOne⟩] := by
  intro same
  have alike : [(⟨⟨1, 0⟩, ⟨2, 0⟩, .call getKey⟩ : Asked)] = [⟨⟨1, 0⟩, ⟨2, 0⟩, .call putOne⟩] :=
    packet_log_tells (List.forall_mem_singleton.mpr ⟨by decide, by decide⟩)
      (List.forall_mem_singleton.mpr ⟨by decide, by decide⟩) same
  exact absurd alike (by decide)

end Cluster

end PpsDht
