import Pequin.Framework.Tally
import Pequin.Proof.TableWrite

/-!
# Read quorums

A read is complete once it has counted a quorum of replies. `HandleReadReply` counts every reply that is authentic,
whoever sent it and however often, and before the committed value is validated. `HandlePointQueryResult` keeps a set of
replicas, but takes the replica of an unsigned reply from the reply. That a replica is in the group is checked by the
number of its host, which the groups share.
-/

namespace Pequin

open Function List Option PendingQuorumGet ReadClient

variable {e : ReadEvent} {sender : Nat} {q : PendingPoint}

section Counted

variable {ρ : Type} (writeOf : ρ → Option Write)

def committedOf (x : ρ) : Option (Bytes × Timestamp) := (writeOf x).bind Write.committed

def preparedOf (x : ρ) : Option (Bytes × Timestamp × Digest) := (writeOf x).bind Write.prepared

/-- The value and timestamp are the newest committed ones of the replies, or the default. -/
def Newest (l : List ρ) (value : Bytes) (ts : Timestamp) : Prop :=
  (∀ x ∈ l, committedOf writeOf x = none) ∧ value = [] ∧ ts = ⟨0, 0⟩ ∨
  (∃ x ∈ l, committedOf writeOf x = some (value, ts)) ∧ ∀ x ∈ l, ∀ v t, committedOf writeOf x = some (v, t) → t ≤ ts

/-- What a read of `value` and `ts` rests on: `l` are the replies counted, `who` has issued them, `ok` are the valid
ones. -/
structure RestsOn (who : ρ → Nat) (ok : ρ → Prop) (quorum depSize : Nat) (l : List ρ) (value : Bytes)
    (ts : Timestamp) (dep : Option ReadDep) : Prop where
  replies : Tally.Attained who (fun x => x ∈ l ∧ ok x) quorum
  votes : ∀ d, dep = some d → ∃ digest, d.write.preparedTxnDigest = some digest ∧
    Tally.Attained who (fun x => x ∈ l ∧ ok x ∧ preparedOf writeOf x = some (value, ts, digest)) depSize
  newest : dep = none → Newest writeOf l value ts

namespace PendingQuorumGet

structure Hears (l : List ρ) (req : PendingQuorumGet) : Prop where
  count : req.numReplies = l.length
  first : req.firstCommittedReply = true ↔ ∀ x ∈ l, committedOf writeOf x = none
  newest : Newest writeOf l req.maxValue req.maxTs
  dep : req.dep = none

def Votes (l : List ρ) (req : PendingQuorumGet) : Prop :=
  ∀ ts w n, req.prepared.lookup ts = some (w, n) → ∃ v d, w.prepared = some (v, ts, d) ∧
    n ≤ (l.filter fun x => preparedOf writeOf x = some (v, ts, d)).length

def VotesNew (l : List ρ) (req : PendingQuorumGet) : Prop :=
  ∀ k n sigs, req.preparedNew.lookup k = some (n, sigs) →
    n ≤ (l.filter fun x => preparedOf writeOf x = some (k.value, k.timestamp, k.txnDigest)).length

def heard (write : Write) (req : PendingQuorumGet) : PendingQuorumGet :=
  write.committed.elim { req with numReplies := req.numReplies + 1 }
    fun c => { req with numReplies := req.numReplies + 1 }.noteCommitted c.1 c.2

variable {writeOf} {p : ReadParams} {l : List ρ} {req req' : PendingQuorumGet} {x : ρ} {write : Write}
  {sig : Nat × Bytes}

/-- What noting a prepared write leaves alone. -/
structure Keeps (req req' : PendingQuorumGet) : Prop where
  key : req'.key = req.key
  tableName : req'.tableName = req.tableName
  rqs : req'.rqs = req.rqs
  rds : req'.rds = req.rds
  numReplies : req'.numReplies = req.numReplies
  first : req'.firstCommittedReply = req.firstCommittedReply
  maxValue : req'.maxValue = req.maxValue
  maxTs : req'.maxTs = req.maxTs
  dep : req'.dep = req.dep

theorem keeps_notePrepared (req : PendingQuorumGet) (write : Write) (sig : Nat × Bytes) :
    Keeps req (req.notePrepared p write sig) := by
  unfold PendingQuorumGet.notePrepared
  split
  · split <;> exact ⟨rfl, rfl, rfl, rfl, rfl, rfl, rfl, rfl, rfl⟩
  · exact ⟨rfl, rfl, rfl, rfl, rfl, rfl, rfl, rfl, rfl⟩

theorem keeps_notePreparedNew (req : PendingQuorumGet) (write : Write) (sig : Nat × Bytes) :
    Keeps req (req.notePreparedNew p write sig) := by
  unfold PendingQuorumGet.notePreparedNew
  split
  · split <;> exact ⟨rfl, rfl, rfl, rfl, rfl, rfl, rfl, rfl, rfl⟩
  · exact ⟨rfl, rfl, rfl, rfl, rfl, rfl, rfl, rfl, rfl⟩

theorem heard_frame : (req.heard write).key = req.key ∧ (req.heard write).tableName = req.tableName ∧
    (req.heard write).rqs = req.rqs ∧ (req.heard write).rds = req.rds ∧
    (req.heard write).prepared = req.prepared ∧ (req.heard write).preparedNew = req.preparedNew := by
  unfold PendingQuorumGet.heard
  cases write.committed <;> exact ⟨rfl, rfl, rfl, rfl, rfl, rfl⟩

theorem process_true (note select : PendingQuorumGet → PendingQuorumGet) (quorum : Nat) :
    req.process true note select quorum write =
      if quorum ≤ (note (req.heard write)).numReplies then (select (note (req.heard write)), true)
      else (note (req.heard write), false) := rfl

theorem Hears.new (key table : Bytes) (rqs rds : Nat) :
    Hears writeOf [] { key := key, tableName := table, rqs := rqs, rds := rds } where
  count := rfl
  first := ⟨nofun, fun _ => rfl⟩
  newest := .inl ⟨nofun, rfl, rfl⟩
  dep := rfl

theorem Hears.of_keeps (h : Hears writeOf l req) (hk : Keeps req req') : Hears writeOf l req' where
  count := hk.numReplies.trans h.count
  first := hk.first ▸ h.first
  newest := by
    rw [hk.maxValue, hk.maxTs]
    exact h.newest
  dep := hk.dep.trans h.dep

theorem Hears.heard (h : Hears writeOf l req) (hw : writeOf x = some write) :
    Hears writeOf (l ++ [x]) (req.heard write) := by
  have hx : committedOf writeOf x = write.committed := by
    rw [committedOf, hw, bind_some]
  have hcount : req.numReplies + 1 = (l ++ [x]).length := by simp [h.count]
  unfold PendingQuorumGet.heard
  cases hc : write.committed with
  | none =>
    rw [hc] at hx
    refine ⟨hcount, ?_, ?_, h.dep⟩
    · simpa [or_imp, forall_and, hx] using h.first
    · simpa [Newest, or_imp, forall_and, or_and_right, exists_or, hx] using h.newest
  | some c =>
    obtain ⟨value, ts⟩ := c
    rw [hc] at hx
    have hbefore : ∀ z ∈ l, ∀ v t, committedOf writeOf z = some (v, t) →
        req.firstCommittedReply = false ∧ t ≤ req.maxTs := by
      intro z hz v t hz'
      rcases h.newest with ⟨hnone, -, -⟩ | ⟨-, hle⟩
      · simp [hnone z hz] at hz'
      · refine ⟨Bool.eq_false_iff.mpr fun hf => ?_, hle z hz v t hz'⟩
        simp [h.first.mp hf z hz] at hz'
    refine ⟨hcount, by simp [noteCommitted, or_imp, forall_and, hx], .inr ?_, h.dep⟩
    simp only [elim_some, noteCommitted]
    by_cases hnew : (req.firstCommittedReply || decide (req.maxTs < ts)) = true
    · -- the value is newer than all before it
      rw [if_pos hnew, if_pos hnew]
      refine ⟨⟨x, by simp, hx⟩, forall_mem_append.mpr ⟨fun z hz v t hz' => ?_, by simp [hx]⟩⟩
      obtain ⟨hfirst, hle⟩ := hbefore z hz v t hz'
      rw [hfirst, Bool.false_or, decide_eq_true_eq] at hnew
      exact hle.trans hnew.le
    · rw [if_neg hnew, if_neg hnew]
      simp only [Bool.or_eq_true, decide_eq_true_eq, not_or, not_lt] at hnew
      rcases h.newest with ⟨hnone, -, -⟩ | ⟨⟨y, hy, he⟩, hle⟩
      · exact absurd (h.first.mpr hnone) hnew.1
      · exact ⟨⟨y, mem_append_left _ hy, he⟩, forall_mem_append.mpr ⟨hle, by simpa [hx] using hnew.2⟩⟩

theorem fields_of_prepared {w : Write} {x : Bytes × Timestamp × Digest} (h : w.prepared = some x) :
    w.preparedValue = some x.1 ∧ w.preparedTimestamp = some x.2.1 ∧ w.preparedTxnDigest = some x.2.2 := by
  unfold Write.prepared at h
  split at h
  · cases h
    exact ⟨by assumption, by assumption, by assumption⟩
  · cases h

theorem samePrepared_iff {a b : Write} {x y : Bytes × Timestamp × Digest} (ha : a.prepared = some x)
    (hb : b.prepared = some y) : a.samePrepared b = true ↔ x = y := by
  obtain ⟨ha₁, ha₂, ha₃⟩ := fields_of_prepared ha
  obtain ⟨hb₁, hb₂, hb₃⟩ := fields_of_prepared hb
  rw [Write.samePrepared, ha₁, ha₂, ha₃, hb₁, hb₂, hb₃]
  simp only [getD_some, Bool.and_eq_true, beq_iff_eq, and_assoc]
  obtain ⟨x₁, x₂, x₃⟩ := x
  obtain ⟨y₁, y₂, y₃⟩ := y
  simp

theorem length_filter_snoc_le (f : ρ → Bool) : (l.filter f).length ≤ ((l ++ [x]).filter f).length := by
  rw [filter_append, length_append]
  omega

theorem length_preparedOf_snoc {y : Bytes × Timestamp × Digest} (hw : writeOf x = some write)
    (hprep : write.prepared = some y) : ((l ++ [x]).filter fun x => preparedOf writeOf x = some y).length =
      (l.filter fun x => preparedOf writeOf x = some y).length + 1 := by
  have hx : preparedOf writeOf x = some y := by
    rw [preparedOf, hw, bind_some, hprep]
  simp [filter_append, hx]

theorem Votes.notePrepared (h : Votes writeOf l req) (hw : writeOf x = some write)
    (he : req'.prepared = req.prepared) : Votes writeOf (l ++ [x]) (req'.notePrepared p write sig) := by
  have hold : Votes writeOf (l ++ [x]) req' := by
    intro ts w n hl
    obtain ⟨v, d, hp, hn⟩ := h ts w n (he ▸ hl)
    exact ⟨v, d, hp, hn.trans (length_filter_snoc_le _)⟩
  unfold PendingQuorumGet.notePrepared
  split
  · rename_i v ts d hprep
    have hone := length_preparedOf_snoc (l := l) hw hprep
    split
    · intro ts' w n hl
      by_cases hts : ts' = ts
      · subst hts
        split at hl
        · -- the first write of its timestamp
          rw [AList.lookup_insert, some.injEq, Prod.mk.injEq] at hl
          obtain ⟨rfl, rfl⟩ := hl
          exact ⟨v, d, hprep, by omega⟩
        · rename_i w₀ n₀ hl₀
          obtain ⟨v₀, d₀, hp₀, hn₀⟩ := h ts' w₀ n₀ (he ▸ hl₀)
          split at hl
          · rename_i hsame
            rw [AList.lookup_insert, some.injEq, Prod.mk.injEq] at hl
            obtain ⟨rfl, rfl⟩ := hl
            cases (samePrepared_iff hp₀ hprep).mp hsame
            exact ⟨v, d, hp₀, by omega⟩
          · exact hold ts' w n hl
      · refine hold ts' w n ?_
        split at hl
        · rwa [AList.lookup_insert_ne hts] at hl
        · split at hl
          · rwa [AList.lookup_insert_ne hts] at hl
          · exact hl
    · exact hold
  · exact hold

theorem VotesNew.notePreparedNew (h : VotesNew writeOf l req) (hw : writeOf x = some write)
    (he : req'.preparedNew = req.preparedNew) : VotesNew writeOf (l ++ [x]) (req'.notePreparedNew p write sig) := by
  have hold : VotesNew writeOf (l ++ [x]) req' := by
    intro k n sigs hl
    exact (h k n sigs (he ▸ hl)).trans (length_filter_snoc_le _)
  unfold PendingQuorumGet.notePreparedNew
  split
  · rename_i v ts d hprep
    have hone := length_preparedOf_snoc (l := l) hw hprep
    split
    · intro k n sigs hl
      by_cases hk : k = ⟨ts, d, v⟩
      · subst hk
        rw [AList.lookup_insert, some.injEq, Prod.mk.injEq] at hl
        have hbefore : ((req'.preparedNew.lookup ⟨ts, d, v⟩).getD (0, [])).1 ≤
            (l.filter fun x => preparedOf writeOf x = some (v, ts, d)).length := by
          cases hl₀ : req'.preparedNew.lookup ⟨ts, d, v⟩ with
          | none => exact Nat.zero_le _
          | some e => exact h ⟨ts, d, v⟩ e.1 e.2 (he ▸ hl₀)
        show _ ≤ ((l ++ [x]).filter fun x => preparedOf writeOf x = some (v, ts, d)).length
        omega
      · rw [AList.lookup_insert_ne hk] at hl
        exact hold k n sigs hl
    · exact hold
  · exact hold

/-! ## Completing a read -/

theorem selectPrepared_eq_some {κ ν : Type} {ts : κ → Timestamp} {votes : ν → Nat} {maxTs : Timestamp}
    {depSize : Nat} {l : List ((_ : κ) × ν)} {e : (_ : κ) × ν}
    (h : selectPrepared ts votes maxTs depSize l = some e) : e ∈ l ∧ depSize ≤ votes e.2 := by
  induction l with
  | nil => cases h
  | cons e' l ih =>
    rw [selectPrepared] at h
    split at h
    · cases h
    split at h
    · cases h
      exact ⟨mem_cons_self, by assumption⟩
    · obtain ⟨hm, hv⟩ := ih h
      exact ⟨mem_cons_of_mem _ hm, hv⟩

variable {who : ρ → Nat} {ok : ρ → Prop} {quorum : Nat}

theorem Hears.backed (h : Hears writeOf l req) (hnd : (l.map who).Nodup) (hok : ∀ x ∈ l, ok x)
    (hq : quorum ≤ req.numReplies) (depSize : Nat) :
    RestsOn writeOf who ok quorum depSize l req.maxValue req.maxTs req.dep where
  replies := ⟨l, hnd, fun x hx => ⟨hx, hok x hx⟩, h.count ▸ hq⟩
  votes d hd := by
    rw [h.dep] at hd
    cases hd
  newest _ := h.newest

theorem Hears.select (h : Hears writeOf l req) (hv : Votes writeOf l req) (hnd : (l.map who).Nodup)
    (hok : ∀ x ∈ l, ok x) (hq : quorum ≤ req.numReplies) :
    RestsOn writeOf who ok quorum req.rds l (req.select p).maxValue (req.select p).maxTs (req.select p).dep := by
  have hself := h.backed hnd hok hq req.rds
  unfold PendingQuorumGet.select
  simp only
  split
  · rename_i ts w n hsel
    split
    · obtain ⟨hmem, hvotes⟩ := selectPrepared_eq_some hsel
      have hl : req.prepared.lookup ts = some (w, n) :=
        AList.mem_lookup_iff.mpr ((mem_insertionSort _).mp hmem)
      obtain ⟨v, d, hprep, hn⟩ := hv ts w n hl
      refine ⟨hself.replies, fun dep hd => ?_, nofun⟩
      cases hd
      obtain ⟨hvalue, -, hdigest⟩ := fields_of_prepared hprep
      refine ⟨d, hdigest, Tally.attained_filter hnd (fun x hx hf => ⟨hx, hok x hx, ?_⟩) (hvotes.trans hn)⟩
      rw [hvalue]
      simpa using hf
    · exact hself
  · exact hself

theorem Hears.selectNew (h : Hears writeOf l req) (hv : VotesNew writeOf l req) (hnd : (l.map who).Nodup)
    (hok : ∀ x ∈ l, ok x) (hq : quorum ≤ req.numReplies) :
    RestsOn writeOf who ok quorum p.readDepSize l (req.selectNew p).maxValue (req.selectNew p).maxTs
      (req.selectNew p).dep := by
  have hself := h.backed hnd hok hq p.readDepSize
  unfold PendingQuorumGet.selectNew
  simp only
  split
  · rename_i k n sigs hsel
    split
    · obtain ⟨hmem, hvotes⟩ := selectPrepared_eq_some hsel
      have hl : req.preparedNew.lookup k = some (n, sigs) :=
        AList.mem_lookup_iff.mpr ((mem_insertionSort _).mp hmem)
      refine ⟨hself.replies, fun dep hd => ⟨k.txnDigest, ?_, ?_⟩, nofun⟩
      · rw [← some.inj hd]
        split <;> rfl
      · exact Tally.attained_filter hnd (fun x hx hf => ⟨hx, hok x hx, by simpa using hf⟩)
          (hvotes.trans (hv k n sigs hl))
    · exact hself
  · exact hself

end PendingQuorumGet

end Counted

def ReplyBody.issuer (sender : Nat) : ReplyBody → Nat
  | .signedWrite m => m.processId
  | _ => sender

section Replies

variable (p : ReadParams)

/-- The reply is authentic, and its committed value validates. -/
def ReadReply.valid (key : Bytes) (reply : ReadReply) : Bool :=
  (reply.body.authWrite p).any fun write =>
    committedValid (fun proof v ts => some (validateTransactionWrite p proof key v ts)) reply.proof write == some true

def PointQueryResultReply.valid (key table : Bytes) (reply : PointQueryResultReply) : Bool :=
  (reply.authWrite p).any fun write =>
    committedValid (fun proof v ts => validateTransactionTableWrite p proof ts key v table) reply.proof write ==
      some true

def countedReads (id : Nat) (es : List ReadEvent) : List (Nat × ReadReply) :=
  es.filterMap fun
    | .readReply sender reply =>
      if reply.reqId = id ∧ (reply.body.authWrite p).isSome then some (sender, reply) else none
    | _ => none

/-- The replies to a point query that `HandlePointQueryResult` counts, the first of each replica id. -/
def countedPoints (id : Nat) (es : List ReadEvent) : List (Nat × PointQueryResultReply) :=
  es.foldl (fun l e =>
    match e with
    | .pointReply sender reply =>
      if reply.reqId = id ∧ (reply.authWrite p).isSome ∧ reply.replicaId ∉ l.map (fun x => x.2.replicaId) then
        l ++ [(sender, reply)]
      else l
    | _ => l) []

/-- A reply counted is valid and its issuer in the group; for a point query it is the replica named. -/
def ReadEvent.proper (s : ReadClient) : ReadEvent → Bool
  | .readReply sender reply => (s.pendingGets reply.reqId).all fun req =>
      (reply.body.authWrite p).isNone || reply.body.issuer sender / p.config.n == p.group && reply.valid p req.key
  | .pointReply sender reply => (s.pendingQueries reply.reqId).all fun q =>
      (reply.authWrite p).isNone || decide (reply.replicaId ∈ q.resultsVerified) ||
        reply.body.issuer sender == reply.replicaId && reply.replicaId / p.config.n == p.group &&
          reply.valid p q.pendingPointQuery.key q.pendingPointQuery.tableName
  | _ => true

/-- The result of a read rests on valid replies of the group. -/
def ReadResult.ReadBacked (key : Bytes) (l : List (Nat × ReadReply)) (r : ReadResult) : Prop :=
  RestsOn (fun x : Nat × ReadReply => x.2.body.authWrite p) (fun x => x.2.body.issuer x.1)
    (fun x => x.2.body.issuer x.1 / p.config.n = p.group ∧ x.2.valid p key = true)
    p.readQuorumSize p.readDepSize l r.value r.timestamp r.dep

/-- Likewise for a point query. -/
def ReadResult.PointBacked (key table : Bytes) (l : List (Nat × PointQueryResultReply)) (r : ReadResult) : Prop :=
  RestsOn (fun x : Nat × PointQueryResultReply => x.2.authWrite p) (fun x => x.2.body.issuer x.1)
    (fun x => x.2.body.issuer x.1 / p.config.n = p.group ∧ x.2.valid p key table = true)
    p.readQuorumSize p.readDepSize l r.value r.timestamp r.dep

end Replies

namespace ReadClient

variable {p : ReadParams} {id : Nat} {key table : Bytes} {past es : List ReadEvent} {s s' : ReadClient}
  {reply : PointQueryResultReply}

theorem finishGet_frame (s : ReadClient) (reqId : Nat) (req : PendingQuorumGet) :
    (s.finishGet reqId req).pendingGets = s.pendingGets ∧ (s.finishGet reqId req).lastReqId = s.lastReqId ∧
      (s.finishGet reqId req).pendingQueries = s.pendingQueries := by
  unfold finishGet
  split <;> exact ⟨rfl, rfl, rfl⟩

/-- What an event does to an earlier request: a reply to it is handled, and otherwise it stays. -/
structure Requests (p : ReadParams) (id : Nat) (s s' : ReadClient) (e : ReadEvent) : Prop where
  lastReqId : s.lastReqId ≤ s'.lastReqId
  gets : ∀ req, s'.pendingGets id = some req →
    (s.pendingGets id = some req ∧ ∀ sender reply, e = .readReply sender reply → reply.reqId ≠ id) ∨
    ∃ sender reply req₀, e = .readReply sender reply ∧ reply.reqId = id ∧ s.pendingGets id = some req₀ ∧
      req₀.handleReadReply p reply = some (req, false)
  queries : ∀ q, s'.pendingQueries id = some q →
    (s.pendingQueries id = some q ∧ ∀ sender reply, e = .pointReply sender reply → reply.reqId ≠ id) ∨
    ∃ sender reply q₀, e = .pointReply sender reply ∧ reply.reqId = id ∧ s.pendingQueries id = some q₀ ∧
      q₀.handlePointQueryResult p reply = some (q, false)

theorem eq_some_of_update {α : Type} {f : Nat → Option α} {i : Nat} {a : α}
    (h : update f i none id = some a) : f id = some a := by
  rw [update_apply] at h
  split at h
  · cases h
  · exact h

theorem step_requests (hs : step p s e = some s') (hid : id < s.lastReqId) : Requests p id s s' e := by
  cases e with
  | beginTxn | put _ _ =>
    cases hs
    exact ⟨le_rfl, fun _ h => .inl ⟨h, fun _ _ => nofun⟩, fun _ h => .inl ⟨h, fun _ _ => nofun⟩⟩
  | get key' =>
    simp only [step] at hs
    split at hs <;> cases hs
    · exact ⟨le_rfl, fun _ h => .inl ⟨h, fun _ _ => nofun⟩, fun _ h => .inl ⟨h, fun _ _ => nofun⟩⟩
    · exact ⟨Nat.le_succ _, fun _ h => .inl ⟨(update_of_ne hid.ne ..).symm.trans h, fun _ _ => nofun⟩,
        fun _ h => .inl ⟨h, fun _ _ => nofun⟩⟩
  | getTimeout reqId =>
    cases hs
    exact ⟨le_rfl, fun _ h => .inl ⟨eq_some_of_update h, fun _ _ => nofun⟩, fun _ h => .inl ⟨h, fun _ _ => nofun⟩⟩
  | pointQuery key' table' =>
    cases hs
    exact ⟨Nat.le_succ _, fun _ h => .inl ⟨h, fun _ _ => nofun⟩,
      fun _ h => .inl ⟨(update_of_ne hid.ne ..).symm.trans h, fun _ _ => nofun⟩⟩
  | clearQuery reqId =>
    cases hs
    exact ⟨le_rfl, fun _ h => .inl ⟨h, fun _ _ => nofun⟩, fun _ h => .inl ⟨eq_some_of_update h, fun _ _ => nofun⟩⟩
  | readReply sender reply =>
    simp only [step] at hs
    split at hs
    · rename_i hnone
      cases hs
      refine ⟨le_rfl, fun req h => .inl ⟨h, fun _ _ he hreq => ?_⟩, fun _ h => .inl ⟨h, fun _ _ => nofun⟩⟩
      cases he
      rw [hreq, h] at hnone
      cases hnone
    · rename_i req₀ hreq₀
      obtain ⟨⟨req', done⟩, hhandle, rfl⟩ := map_eq_some_iff.mp hs
      have hframe := finishGet_frame { s with
        pendingGets := update s.pendingGets reply.reqId (if done then none else some req') } reply.reqId req'
      refine ⟨?_, fun req h => ?_, fun q h => .inl ⟨?_, fun _ _ => nofun⟩⟩
      · cases done
        · exact le_rfl
        · exact hframe.2.1.ge
      · have h' : update s.pendingGets reply.reqId (if done then none else some req') id = some req := by
          cases done
          · exact h
          · exact (congrFun hframe.1 id).symm.trans h
        by_cases hreq : reply.reqId = id
        · rw [hreq, update_self] at h'
          cases done <;> cases h'
          exact .inr ⟨sender, reply, req₀, rfl, hreq, hreq ▸ hreq₀, hhandle⟩
        · rw [update_of_ne (Ne.symm hreq)] at h'
          exact .inl ⟨h', fun _ _ he => by cases he; exact hreq⟩
      · cases done
        · exact h
        · exact (congrFun hframe.2.2 id).symm.trans h
  | pointReply sender reply =>
    simp only [step] at hs
    split at hs
    · rename_i hnone
      cases hs
      refine ⟨le_rfl, fun _ h => .inl ⟨h, fun _ _ => nofun⟩, fun q h => .inl ⟨h, fun _ _ he hreq => ?_⟩⟩
      cases he
      rw [hreq, h] at hnone
      cases hnone
    · rename_i q₀ hq₀
      obtain ⟨⟨q', done⟩, hhandle, rfl⟩ := map_eq_some_iff.mp hs
      refine ⟨by cases done <;> exact le_rfl, fun _ h => .inl ⟨by cases done <;> exact h, fun _ _ => nofun⟩,
        fun q h => ?_⟩
      have h' : update s.pendingQueries reply.reqId (if done then none else some q') id = some q := by
        cases done <;> exact h
      by_cases hreq : reply.reqId = id
      · rw [hreq, update_self] at h'
        cases done <;> cases h'
        exact .inr ⟨sender, reply, q₀, rfl, hreq, hreq ▸ hq₀, hhandle⟩
      · rw [update_of_ne (Ne.symm hreq)] at h'
        exact .inl ⟨h', fun _ _ he => by cases he; exact hreq⟩

/-- What a read of `key` has made of the events since it was sent. -/
structure Reading (p : ReadParams) (id : Nat) (key : Bytes) (past : List ReadEvent) (req : PendingQuorumGet) :
    Prop where
  sameKey : req.key = key
  rqs : req.rqs = p.readQuorumSize
  rds : req.rds = p.readDepSize
  hears : req.Hears (fun x : Nat × ReadReply => x.2.body.authWrite p) (countedReads p id past)
  votes : req.Votes (fun x : Nat × ReadReply => x.2.body.authWrite p) (countedReads p id past)
  valid : ∀ x ∈ countedReads p id past, x.2.body.issuer x.1 / p.config.n = p.group ∧ x.2.valid p key = true

theorem countedReads_snoc : countedReads p id (past ++ [e]) = countedReads p id past ++ countedReads p id [e] := by
  rw [countedReads, filterMap_append]
  rfl

section

variable {req : PendingQuorumGet} (h : Reading p id key past req)
include h

theorem Reading.skip (he : countedReads p id [e] = []) : Reading p id key (past ++ [e]) req := by
  have hsame : countedReads p id (past ++ [e]) = countedReads p id past := by
    rw [countedReads_snoc, he, append_nil]
  exact ⟨h.sameKey, h.rqs, h.rds, hsame ▸ h.hears, hsame ▸ h.votes, hsame ▸ h.valid⟩

theorem Reading.handle {reply : ReadReply} {r : PendingQuorumGet × Bool} (hid : reply.reqId = id)
    (hp : (reply.body.authWrite p).isSome = true →
      reply.body.issuer sender / p.config.n = p.group ∧ reply.valid p key = true)
    (hr : req.handleReadReply p reply = some r) :
    (r.2 = false → Reading p id key (past ++ [.readReply sender reply]) r.1) ∧ (r.2 = true →
      ((countedReads p id (past ++ [.readReply sender reply])).map fun x => x.2.body.issuer x.1).Nodup →
      ∀ res : ReadResult, res.value = r.1.maxValue → res.timestamp = r.1.maxTs → res.dep = r.1.dep →
        res.ReadBacked p key (countedReads p id (past ++ [.readReply sender reply]))) := by
  unfold handleReadReply at hr
  split at hr
  · rename_i hauth
    split at hr
    · cases hr
    · cases hr
      refine ⟨fun _ => h.skip ?_, nofun⟩
      simp [countedReads, hauth]
  · rename_i write hauth
    obtain ⟨hgroup, hvalid⟩ := hp (by rw [hauth]; rfl)
    have hcommitted : committedValid (fun proof v ts => some (validateTransactionWrite p proof req.key v ts))
        reply.proof write = some true := by
      rw [ReadReply.valid, hauth, any_some, beq_iff_eq] at hvalid
      rw [h.sameKey]
      exact hvalid
    rw [hcommitted, map_some, some.injEq, process_true] at hr
    have hl : countedReads p id (past ++ [.readReply sender reply]) = countedReads p id past ++ [(sender, reply)] := by
      simp [countedReads, hauth, hid]
    rw [hl]
    -- the request with the reply counted
    obtain ⟨hkey₀, -, hrqs₀, hrds₀, hprepared₀, -⟩ := heard_frame
    have hkeeps := keeps_notePrepared (p := p) (req.heard write) write reply.body.sig
    have hhears := (h.hears.heard (x := (sender, reply)) hauth).of_keeps hkeeps
    have hvotes : ((req.heard write).notePrepared p write reply.body.sig).Votes
        (fun x : Nat × ReadReply => x.2.body.authWrite p) (countedReads p id past ++ [(sender, reply)]) :=
      h.votes.notePrepared hauth hprepared₀
    have hok : ∀ x ∈ countedReads p id past ++ [(sender, reply)],
        x.2.body.issuer x.1 / p.config.n = p.group ∧ x.2.valid p key = true :=
      forall_mem_append.mpr ⟨h.valid, forall_mem_singleton.mpr ⟨hgroup, hvalid⟩⟩
    have hrqs : req.rqs = p.readQuorumSize := h.rqs
    have hrds := hkeeps.rds.trans (hrds₀.trans h.rds)
    split at hr
    · rename_i hq
      cases hr
      refine ⟨nofun, fun _ hnd res hvalue hts hdep => ?_⟩
      rw [ReadResult.ReadBacked, hvalue, hts, hdep, ← hrds]
      exact hhears.select hvotes hnd hok (hrqs ▸ hq)
    · cases hr
      refine ⟨fun _ => ⟨?_, ?_, hrds, hl ▸ hhears, hl ▸ hvotes, hl ▸ hok⟩, nofun⟩
      · exact hkeeps.key.trans (hkey₀.trans h.sameKey)
      · exact hkeeps.rqs.trans (hrqs₀.trans h.rqs)

theorem Reading.proper {reply : ReadReply} (hreq : s.pendingGets reply.reqId = some req)
    (hp : (ReadEvent.readReply sender reply).proper p s = true) (hsome : (reply.body.authWrite p).isSome = true) :
    reply.body.issuer sender / p.config.n = p.group ∧ reply.valid p key = true := by
  rw [ReadEvent.proper, hreq, all_some, ← not_isSome, hsome] at hp
  simpa only [Bool.not_true, Bool.false_or, Bool.and_eq_true, beq_iff_eq, h.sameKey] using hp

end

def ReadingAt (p : ReadParams) (id : Nat) (key : Bytes) (past : List ReadEvent) (s : ReadClient) : Prop :=
  id < s.lastReqId ∧ ∀ req, s.pendingGets id = some req → Reading p id key past req

theorem ReadingAt.step (h : ReadingAt p id key past s) (hp : e.proper p s = true)
    (hs : step p s e = some s') : ReadingAt p id key (past ++ [e]) s' := by
  have hstep := step_requests hs h.1
  refine ⟨h.1.trans_le hstep.lastReqId, fun req hreq => ?_⟩
  rcases hstep.gets req hreq with ⟨hold, hother⟩ | ⟨sender, reply, req₀, rfl, hid, hreq₀, hhandle⟩
  · refine (h.2 req hold).skip ?_
    cases e with
    | readReply sender reply => simp [countedReads, hother sender reply rfl]
    | _ => rfl
  · have hread := h.2 req₀ hreq₀
    exact (hread.handle hid (hread.proper (hid ▸ hreq₀) hp) hhandle).1 rfl

/-- What a point query has made of the events since it was sent. -/
structure Querying (p : ReadParams) (id : Nat) (key table : Bytes) (past : List ReadEvent) (q : PendingPoint) :
    Prop where
  sameKey : q.pendingPointQuery.key = key
  sameTable : q.pendingPointQuery.tableName = table
  verified : ∀ r, r ∈ q.resultsVerified ↔ r ∈ (countedPoints p id past).map fun x => x.2.replicaId
  hears : q.pendingPointQuery.Hears (fun x : Nat × PointQueryResultReply => x.2.authWrite p)
    (countedPoints p id past)
  votes : q.pendingPointQuery.VotesNew (fun x : Nat × PointQueryResultReply => x.2.authWrite p)
    (countedPoints p id past)
  valid : ∀ x ∈ countedPoints p id past, x.2.body.issuer x.1 / p.config.n = p.group ∧ x.2.valid p key table = true
  issued : ∀ x ∈ countedPoints p id past, x.2.body.issuer x.1 = x.2.replicaId
  distinct : ((countedPoints p id past).map fun x => x.2.replicaId).Nodup

theorem countedPoints_snoc : countedPoints p id (past ++ [e]) = match e with
    | .pointReply sender reply =>
      if reply.reqId = id ∧ (reply.authWrite p).isSome ∧
          reply.replicaId ∉ (countedPoints p id past).map (fun x => x.2.replicaId) then
        countedPoints p id past ++ [(sender, reply)]
      else countedPoints p id past
    | _ => countedPoints p id past := by
  rw [countedPoints, foldl_append]
  rfl

theorem Querying.skip (h : Querying p id key table past q)
    (he : countedPoints p id (past ++ [e]) = countedPoints p id past) : Querying p id key table (past ++ [e]) q :=
  ⟨h.sameKey, h.sameTable, he ▸ h.verified, he ▸ h.hears, he ▸ h.votes, he ▸ h.valid, he ▸ h.issued, he ▸ h.distinct⟩

theorem Querying.handle {r : PendingPoint × Bool} (h : Querying p id key table past q) (hid : reply.reqId = id)
    (hp : (reply.authWrite p).isSome = true → reply.replicaId ∉ q.resultsVerified →
      reply.body.issuer sender = reply.replicaId ∧ reply.replicaId / p.config.n = p.group ∧
        reply.valid p key table = true) (hr : q.handlePointQueryResult p reply = some r) :
    (r.2 = false → Querying p id key table (past ++ [.pointReply sender reply]) r.1) ∧ (r.2 = true →
      ∀ res : ReadResult, res.value = r.1.pendingPointQuery.maxValue → res.timestamp = r.1.pendingPointQuery.maxTs →
        res.dep = r.1.pendingPointQuery.dep →
        res.PointBacked p key table (countedPoints p id (past ++ [.pointReply sender reply]))) := by
  unfold PendingPoint.handlePointQueryResult at hr
  split at hr
  · rename_i hauth
    cases hr
    refine ⟨fun _ => h.skip ?_, nofun⟩
    rw [countedPoints_snoc]
    simp [hauth]
  · rename_i write hauth
    have hsome : (reply.authWrite p).isSome = true := by rw [hauth]; rfl
    split at hr
    · rename_i hdup
      cases hr
      refine ⟨fun _ => h.skip ?_, nofun⟩
      have hmem := (h.verified reply.replicaId).mp hdup
      rw [countedPoints_snoc]
      exact if_neg fun hc => hc.2.2 hmem
    · rename_i hnew
      have hnotmem := fun hm => hnew ((h.verified reply.replicaId).mpr hm)
      obtain ⟨hissuer, hgroup, hvalid⟩ := hp hsome hnew
      have hl : countedPoints p id (past ++ [.pointReply sender reply]) =
          countedPoints p id past ++ [(sender, reply)] := by
        rw [countedPoints_snoc]
        exact if_pos ⟨hid, hsome, hnotmem⟩
      have hcommitted : committedValid (fun proof v ts => validateTransactionTableWrite p proof ts
          q.pendingPointQuery.key v q.pendingPointQuery.tableName) reply.proof write = some true := by
        rw [PointQueryResultReply.valid, hauth, any_some, beq_iff_eq] at hvalid
        rw [h.sameKey, h.sameTable]
        exact hvalid
      rw [processRead, hcommitted, map_some, map_some, some.injEq, process_true] at hr
      rw [hl]
      obtain ⟨hkey₀, htable₀, -, -, -, hprepared₀⟩ := heard_frame
      have hkeeps := keeps_notePreparedNew (p := p) (q.pendingPointQuery.heard write) write
        reply.body.sig
      have hhears := (h.hears.heard (x := (sender, reply)) hauth).of_keeps hkeeps
      have hvotes : ((q.pendingPointQuery.heard write).notePreparedNew p write reply.body.sig).VotesNew
          (fun x : Nat × PointQueryResultReply => x.2.authWrite p) (countedPoints p id past ++ [(sender, reply)]) :=
        h.votes.notePreparedNew hauth hprepared₀
      have hok : ∀ x ∈ countedPoints p id past ++ [(sender, reply)],
          x.2.body.issuer x.1 / p.config.n = p.group ∧ x.2.valid p key table = true :=
        forall_mem_append.mpr ⟨h.valid, forall_mem_singleton.mpr ⟨hissuer.symm ▸ hgroup, hvalid⟩⟩
      have hissued : ∀ x ∈ countedPoints p id past ++ [(sender, reply)], x.2.body.issuer x.1 = x.2.replicaId :=
        forall_mem_append.mpr ⟨h.issued, forall_mem_singleton.mpr hissuer⟩
      have hdistinct : ((countedPoints p id past ++ [(sender, reply)]).map fun x => x.2.replicaId).Nodup := by
        rw [map_append, map_singleton, nodup_append]
        refine ⟨h.distinct, nodup_singleton _, fun a ha b hb he => hnotmem ?_⟩
        rw [mem_singleton.mp hb] at he
        exact he ▸ ha
      split at hr
      · rename_i hq
        cases hr
        refine ⟨nofun, fun _ res hvalue hts hdep => ?_⟩
        rw [ReadResult.PointBacked, hvalue, hts, hdep]
        refine hhears.selectNew hvotes ?_ hok hq
        rw [map_congr_left hissued]
        exact hdistinct
      · cases hr
        refine ⟨fun _ => ⟨?_, ?_, fun a => ?_, hl ▸ hhears, hl ▸ hvotes, hl ▸ hok, hl ▸ hissued, hl ▸ hdistinct⟩, nofun⟩
        · exact hkeeps.key.trans (hkey₀.trans h.sameKey)
        · exact hkeeps.tableName.trans (htable₀.trans h.sameTable)
        · rw [hl, map_append, map_singleton, mem_cons, mem_append, mem_singleton, h.verified a, or_comm]

theorem Querying.proper (h : Querying p id key table past q) (hq : s.pendingQueries reply.reqId = some q)
    (hp : (ReadEvent.pointReply sender reply).proper p s = true) (hsome : (reply.authWrite p).isSome = true)
    (hnew : reply.replicaId ∉ q.resultsVerified) :
    reply.body.issuer sender = reply.replicaId ∧ reply.replicaId / p.config.n = p.group ∧
      reply.valid p key table = true := by
  rw [ReadEvent.proper, hq, all_some, ← not_isSome, hsome] at hp
  simpa [hnew, h.sameKey, h.sameTable, and_assoc] using hp

def QueryingAt (p : ReadParams) (id : Nat) (key table : Bytes) (past : List ReadEvent) (s : ReadClient) : Prop :=
  id < s.lastReqId ∧ ∀ q, s.pendingQueries id = some q → Querying p id key table past q

theorem QueryingAt.step (h : QueryingAt p id key table past s) (hp : e.proper p s = true)
    (hs : step p s e = some s') : QueryingAt p id key table (past ++ [e]) s' := by
  have hstep := step_requests hs h.1
  refine ⟨h.1.trans_le hstep.lastReqId, fun q hq => ?_⟩
  rcases hstep.queries q hq with ⟨hold, hother⟩ | ⟨sender, reply, q₀, rfl, hid, hq₀, hhandle⟩
  · refine (h.2 q hold).skip ?_
    cases e with
    | pointReply sender reply =>
      rw [countedPoints_snoc]
      exact if_neg fun hc => hother sender reply rfl hc.1
    | _ => exact countedPoints_snoc
  · have hquery := h.2 q₀ hq₀
    exact (hquery.handle hid (hquery.proper (hid ▸ hq₀) hp) hhandle).1 rfl

theorem select_key (req : PendingQuorumGet) : (req.select p).key = req.key := by
  unfold PendingQuorumGet.select
  simp only
  split
  · split <;> rfl
  · rfl

theorem handleReadReply_key {req : PendingQuorumGet} {reply : ReadReply} {r : PendingQuorumGet × Bool}
    (h : req.handleReadReply p reply = some r) : r.1.key = req.key := by
  unfold handleReadReply at h
  split at h
  · split at h
    · cases h
    · cases h
      rfl
  · rename_i write hauth
    obtain ⟨valid, -, rfl⟩ := map_eq_some_iff.mp h
    have hnoted : ((req.heard write).notePrepared p write reply.body.sig).key = req.key :=
      (keeps_notePrepared _ _ _).key.trans heard_frame.1
    cases valid with
    | false => rfl
    | true =>
      rw [process_true]
      split
      · exact (select_key _).trans hnoted
      · exact hnoted

theorem readReply_result {reply : ReadReply} {r : ReadResult}
    (hs : step p s (.readReply sender reply) = some s') (hres : s'.results = s.results ++ [r]) :
    ∃ req req', s.pendingGets reply.reqId = some req ∧ req.handleReadReply p reply = some (req', true) ∧
      r.reqId = some reply.reqId ∧
      (s.readValues.lookup req.key = none → r.value = req'.maxValue ∧ r.timestamp = req'.maxTs ∧ r.dep = req'.dep) := by
  simp only [step] at hs
  split at hs
  · cases hs
    simp at hres
  rename_i req hreq
  obtain ⟨⟨req', done⟩, hhandle, rfl⟩ := map_eq_some_iff.mp hs
  refine ⟨req, req', hreq, ?_⟩
  cases done with
  | false => simp at hres
  | true =>
    rw [← handleReadReply_key hhandle]
    simp only [↓reduceIte, finishGet] at hres
    split at hres
    · cases append_cancel_left hres
      exact ⟨hhandle, rfl, fun _ => ⟨rfl, rfl, rfl⟩⟩
    · rename_i value hread
      cases append_cancel_left hres
      exact ⟨hhandle, rfl, fun hnone => by rw [hnone] at hread; cases hread⟩

theorem pointReply_result {r : ReadResult}
    (hs : step p s (.pointReply sender reply) = some s') (hres : s'.results = s.results ++ [r]) :
    ∃ q q', s.pendingQueries reply.reqId = some q ∧ q.handlePointQueryResult p reply = some (q', true) ∧
      r.reqId = some reply.reqId ∧ r.value = q'.pendingPointQuery.maxValue ∧
      r.timestamp = q'.pendingPointQuery.maxTs ∧ r.dep = q'.pendingPointQuery.dep := by
  simp only [step] at hs
  split at hs
  · cases hs
    simp at hres
  rename_i q hq
  obtain ⟨⟨q', done⟩, hhandle, rfl⟩ := map_eq_some_iff.mp hs
  refine ⟨q, q', hq, ?_⟩
  cases done with
  | false => simp at hres
  | true =>
    cases append_cancel_left hres
    exact ⟨hhandle, rfl, rfl, rfl, rfl⟩

theorem Reading.new (p : ReadParams) (id : Nat) (key : Bytes) :
    Reading p id key [] { key := key, rqs := p.readQuorumSize, rds := p.readDepSize } where
  sameKey := rfl
  rqs := rfl
  rds := rfl
  hears := .new key [] _ _
  votes _ _ _ h := by cases h
  valid _ h := by cases h

theorem Querying.new (p : ReadParams) (id : Nat) (key table : Bytes) : Querying p id key table [] { pendingPointQuery :=
      { key := key, tableName := table, rqs := p.readQuorumSize, rds := p.readDepSize } } where
  sameKey := rfl
  sameTable := rfl
  verified _ := Iff.rfl
  hears := .new key table _ _
  votes _ _ _ h := by cases h
  valid _ h := by cases h
  issued _ h := by cases h
  distinct := nodup_nil

theorem readingAt_of_get (hbuf : s.bufferGet key = none)
    (hm : Run.Meets (step p) (fun s e => e.proper p s = true) s (.get key :: es))
    (hrun : Run.exec (step p) s (.get key :: es) = some s') : ReadingAt p s.lastReqId key es s' := by
  obtain ⟨s₁, hget, hrest⟩ := Run.exec_cons hrun
  have hmeets := hm.2 s₁ hget
  simp only [step, hbuf] at hget
  cases hget
  rw [← nil_append es]
  refine Run.exec_history_of_meets (fun h hp hs => ReadingAt.step h hp hs) ?_ hmeets hrest
  refine ⟨Nat.lt_succ_self _, fun req hreq => ?_⟩
  simp only [update_self, some.injEq] at hreq
  exact hreq ▸ .new p _ key

theorem queryingAt_of_pointQuery
    (hm : Run.Meets (step p) (fun s e => e.proper p s = true) s (.pointQuery key table :: es))
    (hrun : Run.exec (step p) s (.pointQuery key table :: es) = some s') :
    QueryingAt p s.lastReqId key table es s' := by
  obtain ⟨s₁, hquery, hrest⟩ := Run.exec_cons hrun
  have hmeets := hm.2 s₁ hquery
  cases hquery
  rw [← nil_append es]
  refine Run.exec_history_of_meets (fun h hp hs => QueryingAt.step h hp hs) ?_ hmeets hrest
  refine ⟨Nat.lt_succ_self _, fun q hq => ?_⟩
  simp only [update_self, some.injEq] at hq
  exact hq ▸ .new p _ key table

end ReadClient

section Completed

open ReadClient

/-- Where the replies counted are valid ones of the group, a read that distinct replicas answer, of a key not read
meanwhile, rests on a quorum; and so does every point query whose replies are issued by the replicas they name. -/
theorem read_quorum_distinct (p : ReadParams) :
    (∀ (s s₁ s₂ : ReadClient) (key : Bytes) (es : List ReadEvent) (sender : Nat) (reply : ReadReply) (r : ReadResult),
      s.bufferGet key = none →
      Run.Meets (step p) (fun s e => e.proper p s = true) s (.get key :: (es ++ [.readReply sender reply])) →
      ((countedReads p s.lastReqId (es ++ [.readReply sender reply])).map fun x => x.2.body.issuer x.1).Nodup →
      Run.exec (step p) s (.get key :: es) = some s₁ → s₁.readValues.lookup key = none →
      step p s₁ (.readReply sender reply) = some s₂ → s₂.results = s₁.results ++ [r] → r.reqId = some s.lastReqId →
      r.ReadBacked p key (countedReads p s.lastReqId (es ++ [.readReply sender reply]))) ∧
    (∀ (s s₁ s₂ : ReadClient) (key table : Bytes) (es : List ReadEvent) (sender : Nat)
        (reply : PointQueryResultReply) (r : ReadResult), Run.Meets (step p) (fun s e => e.proper p s = true) s
        (.pointQuery key table :: (es ++ [.pointReply sender reply])) →
      Run.exec (step p) s (.pointQuery key table :: es) = some s₁ → step p s₁ (.pointReply sender reply) = some s₂ →
      s₂.results = s₁.results ++ [r] → r.reqId = some s.lastReqId →
      r.PointBacked p key table (countedPoints p s.lastReqId (es ++ [.pointReply sender reply]))) := by
  constructor
  · intro s s₁ s₂ key es sender reply r hbuf hm hnd hrun hkey hs hres hid
    obtain ⟨hbefore, hlast⟩ := hm.append hrun
    have hat := readingAt_of_get hbuf hbefore hrun
    obtain ⟨req, req', hreq, hhandle, hid', hresult⟩ := readReply_result hs hres
    have hsame : reply.reqId = s.lastReqId := some.inj (hid'.symm.trans hid)
    have hread := hat.2 req (hsame ▸ hreq)
    obtain ⟨hvalue, hts, hdep⟩ := hresult (hread.sameKey.symm ▸ hkey)
    exact (hread.handle hsame (hread.proper hreq hlast.1) hhandle).2 rfl hnd r hvalue hts hdep
  · intro s s₁ s₂ key table es sender reply r hm hrun hs hres hid
    rw [← cons_append] at hm
    obtain ⟨hbefore, hlast⟩ := hm.append hrun
    have hat := queryingAt_of_pointQuery hbefore hrun
    obtain ⟨q, q', hq, hhandle, hid', hvalue, hts, hdep⟩ := pointReply_result hs hres
    have hsame : reply.reqId = s.lastReqId := some.inj (hid'.symm.trans hid)
    have hquery := hat.2 q (hsame ▸ hq)
    exact (hquery.handle hsame (hquery.proper hq hlast.1) hhandle).2 rfl r hvalue hts hdep

end Completed

/-! ## One replica -/

def idleReads : ReadClient := ⟨0, fun _ => none, fun _ => none, [], [], ∅, []⟩

def preparedWrite : Write where
  preparedValue := some [9]
  preparedTimestamp := some ⟨3, 1⟩
  preparedTxnDigest := some [7]

def readVote (sender : Nat) : ReadEvent := .readReply sender { reqId := 0, body := .write preparedWrite }

def pointVote (sender replica : Nat) : ReadEvent :=
  .pointReply sender { reqId := 0, replicaId := replica, body := .write preparedWrite }

/-- Replica `5` alone answers a read, and a point query under three names, with a dependency. -/
theorem one_replica_quorum :
    (∃ s s' r, Run.exec (ReadClient.step accountReads) idleReads [.get [1], readVote 5, readVote 5] = some s ∧
      ReadClient.step accountReads s (readVote 5) = some s' ∧ s'.results = s.results ++ [r] ∧
      r.reqId = some 0 ∧ r.dep.isSome = true ∧
      ¬ r.ReadBacked accountReads [1] (countedReads accountReads 0 [readVote 5, readVote 5, readVote 5])) ∧
    (∃ s s' r, Run.exec (ReadClient.step accountReads) idleReads
        [.pointQuery [1] [65], pointVote 5 0, pointVote 5 1] = some s ∧
      ReadClient.step accountReads s (pointVote 5 2) = some s' ∧ s'.results = s.results ++ [r] ∧
      r.reqId = some 0 ∧ r.dep.isSome = true ∧ ¬ r.PointBacked accountReads [1] [65]
        (countedPoints accountReads 0 [pointVote 5 0, pointVote 5 1, pointVote 5 2])) := by
  constructor
  · refine ⟨_, _, _, rfl, rfl, rfl, rfl, rfl, fun h => ?_⟩
    have hone : accountReads.readQuorumSize ≤ [5].length :=
      h.replies.le_length fun x hx => (by decide : ∀ x ∈ countedReads accountReads 0
        [readVote 5, readVote 5, readVote 5], x.2.body.issuer x.1 ∈ [5]) x hx.1
    exact absurd hone (by decide)
  · refine ⟨_, _, _, rfl, rfl, rfl, rfl, rfl, fun h => ?_⟩
    have hone : accountReads.readQuorumSize ≤ [5].length :=
      h.replies.le_length fun x hx => (by decide : ∀ x ∈ countedPoints accountReads 0
        [pointVote 5 0, pointVote 5 1, pointVote 5 2], x.2.body.issuer x.1 ∈ [5]) x hx.1
    exact absurd hone (by decide)

theorem read_quorum_distinct_three :
    (∃ s s' r, Run.exec (ReadClient.step accountReads) idleReads [.get [1], readVote 0, readVote 1] = some s ∧
      ReadClient.step accountReads s (readVote 2) = some s' ∧ s'.results = s.results ++ [r] ∧
      r.ReadBacked accountReads [1] (countedReads accountReads 0 [readVote 0, readVote 1, readVote 2])) ∧
    (∃ s s' r, Run.exec (ReadClient.step accountReads) idleReads
        [.pointQuery [1] [65], pointVote 0 0, pointVote 1 1] = some s ∧
      ReadClient.step accountReads s (pointVote 2 2) = some s' ∧ s'.results = s.results ++ [r] ∧
      r.PointBacked accountReads [1] [65]
        (countedPoints accountReads 0 [pointVote 0 0, pointVote 1 1, pointVote 2 2])) := by
  constructor
  · refine ⟨_, _, _, rfl, rfl, rfl, ?_⟩
    exact (read_quorum_distinct accountReads).1 idleReads _ _ [1] [readVote 0, readVote 1] 2
      { reqId := 0, body := .write preparedWrite } _ rfl (by decide +kernel) (by decide +kernel) rfl rfl rfl rfl rfl
  · refine ⟨_, _, _, rfl, rfl, rfl, ?_⟩
    exact (read_quorum_distinct accountReads).2 idleReads _ _ [1] [65] [pointVote 0 0, pointVote 1 1] 2
      { reqId := 0, replicaId := 2, body := .write preparedWrite } _ (by decide +kernel) rfl rfl rfl rfl

end Pequin
