import Pequin.Model.ConcurrencyControl
import Pequin.Model.Reads

/-!
# The key-value interface

`Get` and `Put` of `Client` within one transaction, and the write set that `Commit` sends. The client
keeps the whole write set; each shard client keeps the writes of its group, and answers reads from them
(`ReadClient`). The partitioner may choose at random, so the group of a call is an input.
-/

namespace Pequin

/-- The calls of a transaction, each with the group it goes to, and what arrives meanwhile. -/
inductive KVEvent where
  | put (group : Nat) (key value : Bytes)
  | get (group : Nat) (key : Bytes)
  | readReply (group sender : Nat) (reply : ReadReply)
  | getTimeout (group reqId : Nat)

/-- A client with the transaction it works on, and its shard clients. -/
structure KVClient where
  involvedGroups : List Nat
  writeSet : List WriteMessage
  shards : Nat → ReadClient

namespace KVClient

variable (p : Nat → ReadParams)

def begin (s : KVClient) : KVClient := { s with involvedGroups := [], writeSet := [] }

/-- A shard client does a step. -/
def onShard (s : KVClient) (group : Nat) (e : ReadEvent) : Option KVClient :=
  (ReadClient.step (p group) (s.shards group) e).map fun c =>
    { s with shards := Function.update s.shards group c }

/-- A group becomes a participant, and its shard client begins. -/
def participate (s : KVClient) (group : Nat) : Option KVClient :=
  if group ∈ s.involvedGroups then some s
  else onShard p { s with involvedGroups := s.involvedGroups ++ [group] } group .beginTxn

def step (s : KVClient) : KVEvent → Option KVClient
  | .put group key value => (s.participate p group).bind fun s =>
      onShard p { s with writeSet := s.writeSet ++ [{ key := key, value := some value }] } group (.put key value)
  | .get group key => (s.participate p group).bind fun s => s.onShard p group (.get key)
  | .readReply group sender reply => s.onShard p group (.readReply sender reply)
  | .getTimeout group reqId => s.onShard p group (.getTimeout reqId)

/-- The write set of `Commit`. `std::sort` leaves the order of writes of one key open. -/
def Commits (parallelCCC : Bool) (s : KVClient) (writeSet : List WriteMessage) : Prop :=
  if parallelCCC then writeSet.Perm s.writeSet ∧ writeSet.Pairwise fun a b => ¬ b.key < a.key
  else writeSet = s.writeSet

end KVClient

end Pequin
