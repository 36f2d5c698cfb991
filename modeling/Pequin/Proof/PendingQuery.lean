import Pequin.Model.PendingQuery
import Pequin.Proof.QueryMerge

/-!
# What the client does with the results of a query

A failure starts a new round of replies. The callback is invoked in each round in which every group replies
(`countP_isOk`), and at each failure from the retry limit on (`replyFail_mem`), after which requests follow.

The predicates of a query are merged by comparing each one with the one before it. `withPrevious` pairs the two.
-/

namespace Pequin

open GroupReply List QueryAction

/-- The predicate stands for the other one: it is checked against at least as many writes. -/
def ReadPredicate.Covers (kept pred : ReadPredicate) : Prop :=
  kept.tableName = pred.tableName ∧ kept.predInstances = pred.predInstances ∧ kept.tableVersion ≤ pred.tableVersion

def withPrevious : Option ReadPredicate → List ReadPredicate → List (Option ReadPredicate × ReadPredicate)
  | _, [] => []
  | previous, pred :: preds => (previous, pred) :: withPrevious (some pred) preds

/-- The only instance of the predicate is the first one of the predicate before. -/
def repeats (x : Option ReadPredicate × ReadPredicate) : Bool :=
  x.2.predInstances.length == 1 && x.2.predInstances.head? == x.1.bind fun last => last.predInstances.head?

def kept (previous : Option ReadPredicate) (preds : List ReadPredicate) : List ReadPredicate :=
  ((withPrevious previous preds).filter fun x => !repeats x).map Prod.snd

theorem addPredicate_eq (acc : List ReadPredicate) (pred : ReadPredicate) :
    addPredicate acc pred = if repeats (acc.getLast?, pred) then acc else acc ++ [pred] := by
  cases acc with
  | nil =>
    have hnone : repeats (none, pred) = false := by
      obtain ⟨_, _, _ | ⟨i, is⟩⟩ := pred <;> simp [repeats]
    rw [addPredicate, List.getLast?_nil, hnone]
    rfl
  | cons a acc => rfl

theorem kept_cons (previous : Option ReadPredicate) (pred : ReadPredicate) (preds : List ReadPredicate) :
    kept previous (pred :: preds) =
      if repeats (previous, pred) then kept (some pred) preds else pred :: kept (some pred) preds := by
  rw [kept, withPrevious, filter_cons]
  cases repeats (previous, pred) <;> rfl

theorem foldl_addPredicate (acc preds : List ReadPredicate) :
    preds.foldl addPredicate acc = acc ++ kept acc.getLast? preds := by
  induction preds generalizing acc with
  | nil => exact (append_nil _).symm
  | cons pred preds ih =>
    rw [foldl_cons, ih, addPredicate_eq, kept_cons]
    cases hrep : repeats (acc.getLast?, pred) with
    | false => simp
    | true =>
      -- the predicate is skipped, but begins with the same instance as the last one
      have hhead : pred.predInstances.head? = acc.getLast?.bind fun last => last.predInstances.head? :=
        beq_iff_eq.mp (Bool.and_eq_true_iff.mp hrep).2
      have hsame (pred' : ReadPredicate) : repeats (acc.getLast?, pred') = repeats (some pred, pred') := by
        simp only [repeats, Option.bind_some, hhead]
      cases preds with
      | nil => rfl
      | cons pred' preds => rw [if_pos rfl, if_pos rfl, kept_cons, kept_cons, hsame]

theorem mem_withPrevious {pred : ReadPredicate} (previous : Option ReadPredicate) {preds : List ReadPredicate}
    (h : pred ∈ preds) : ∃ x ∈ withPrevious previous preds, x.2 = pred := by
  induction preds generalizing previous with
  | nil => cases h
  | cons a preds ih =>
    rcases mem_cons.mp h with rfl | h
    · exact ⟨_, mem_cons_self, rfl⟩
    · obtain ⟨x, hx, hpred⟩ := ih (some a) h
      exact ⟨x, mem_cons_of_mem _ hx, hpred⟩

theorem mem_of_withPrevious {x : Option ReadPredicate × ReadPredicate} {previous : Option ReadPredicate}
    {preds : List ReadPredicate} (h : x ∈ withPrevious previous preds) : x.2 ∈ preds := by
  induction preds generalizing previous with
  | nil => cases h
  | cons a preds ih =>
    rcases mem_cons.mp h with rfl | h
    · exact mem_cons_self
    · exact mem_cons_of_mem _ (ih h)

/-- Each predicate that repeats the one before it has one that covers it, and does not. -/
def RepeatsCovered (acc preds : List ReadPredicate) : Prop :=
  ∀ x ∈ withPrevious acc.getLast? preds, repeats x = true → ∃ k ∈ acc ++ kept acc.getLast? preds, k.Covers x.2

theorem covers_foldl_iff (acc preds : List ReadPredicate) :
    (∀ pred ∈ preds, ∃ k ∈ preds.foldl addPredicate acc, k.Covers pred) ↔ RepeatsCovered acc preds := by
  rw [foldl_addPredicate]
  constructor
  · exact fun h x hx _ => h x.2 (mem_of_withPrevious hx)
  intro h pred hpred
  obtain ⟨x, hx, rfl⟩ := mem_withPrevious acc.getLast? hpred
  cases hrep : repeats x with
  | true => exact h x hx hrep
  | false =>
    refine ⟨x.2, mem_append_right _ (mem_map_of_mem (mem_filter.mpr ⟨hx, ?_⟩)), rfl, rfl, le_rfl⟩
    rw [hrep]
    rfl

theorem readPredicates_foldl_merge (p : CCParams) (rss : List ReadSet) (acc : ReadSet) :
    (rss.foldl (ReadSet.merge p) acc).readPredicates =
      if p.cacheReadSet then (rss.flatMap fun rs => rs.readPredicates.reverse).foldl addPredicate acc.readPredicates
      else acc.readPredicates ++ rss.flatMap ReadSet.readPredicates := by
  induction rss generalizing acc with
  | nil => simp
  | cons rs rss ih =>
    rw [foldl_cons, ih]
    cases hcache : p.cacheReadSet with
    | false => simp [ReadSet.merge, mergePredicates, hcache]
    | true =>
      rw [if_pos rfl, if_pos rfl, flatMap_cons, foldl_append, ReadSet.merge, mergePredicates, hcache]
      rfl

/-- The predicates of the queries are covered in the merged set exactly if those that repeat the one before are covered
by one that does not. A replica merges the predicates of a query from the last one on. -/
theorem merged_covers_iff (p : CCParams) (txn : Transaction) (rss : List ReadSet) :
    ((∀ rs ∈ rss, ∀ pred ∈ rs.readPredicates, ∃ k ∈ (mergeActiveAtClient txn rss).readPredicates, k.Covers pred) ↔
      RepeatsCovered txn.readPredicates (rss.flatMap ReadSet.readPredicates)) ∧
    ((∀ rs ∈ rss, ∀ pred ∈ rs.readPredicates,
        ∃ k ∈ (rss.foldl (ReadSet.merge p) ⟨[], [], []⟩).readPredicates, k.Covers pred) ↔
      p.cacheReadSet = false ∨ RepeatsCovered [] (rss.flatMap fun rs => rs.readPredicates.reverse)) := by
  constructor
  · rw [← covers_foldl_iff]
    simp only [mem_flatMap, forall_exists_index, and_imp]
    exact ⟨fun h pred rs hrs hpred => h rs hrs pred hpred, fun h rs hrs pred hpred => h pred rs hrs hpred⟩
  rw [readPredicates_foldl_merge]
  cases hcache : p.cacheReadSet with
  | false =>
    refine iff_of_true (fun rs hrs pred hpred => ⟨pred, ?_, rfl, rfl, le_rfl⟩) (.inl rfl)
    exact mem_append_right _ (mem_flatMap.mpr ⟨rs, hrs, hpred⟩)
  | true =>
    rw [if_pos rfl, ← covers_foldl_iff]
    simp only [Bool.true_eq_false, false_or, mem_flatMap, mem_reverse, forall_exists_index, and_imp]
    exact ⟨fun h pred rs hrs hpred => h rs hrs pred hpred, fun h rs hrs pred hpred => h pred rs hrs hpred⟩

/-- A predicate on another table is dropped, if it reads the same. -/
theorem predicate_of_other_table_dropped : let pred (table : Bytes) : ReadPredicate := ⟨table, .genesis, [[0]]⟩
    (mergeActiveAtClient MergeState.twoQueries [⟨[], [], [pred [1]]⟩, ⟨[], [], [pred [2]]⟩]).readPredicates =
      [pred [1]] ∧ ([⟨[], [], [pred [1]]⟩, ⟨[], [], [pred [2]]⟩].foldl (ReadSet.merge MergeState.cachingParams)
      ⟨[], [], []⟩).readPredicates = [pred [1]] := by
  decide

namespace QueryAction

def isOk : QueryAction → Bool
  | .replyOk _ => true
  | _ => false

def isReply (a : QueryAction) : Bool := a.isOk || a == .replyFail

/-- A request is sent, or a result enters the transaction. -/
def isFurther : QueryAction → Bool
  | .retry _ _ => true
  | .addQuery _ _ => true
  | _ => false

end QueryAction

def RepliesOnce (acts : List QueryAction) : Prop :=
  acts.countP QueryAction.isReply ≤ 1 ∧
    ∀ before after, acts = before ++ .replyFail :: after → ∀ a ∈ after, a.isFurther = false

namespace ClientPendingQuery

variable {p : ClientQueryParams} {pq : ClientPendingQuery} {replies : List GroupReply}

theorem actions_cons (reply : GroupReply) : pq.actions p (reply :: replies) =
    (pq.queryResultCallback p reply).2 ++ (pq.queryResultCallback p reply).1.actions p replies := rfl

/-- The reply of a group is counted, and the last one answers the query. -/
structure Succeeds (pq : ClientPendingQuery) (r : ClientPendingQuery × List QueryAction) : Prop where
  involvedGroups : r.1.involvedGroups = pq.involvedGroups
  version : r.1.version = pq.version
  groupReplies : r.1.groupReplies = pq.groupReplies + 1
  countP : r.2.countP QueryAction.isOk = if pq.involvedGroups.length = pq.groupReplies + 1 then 1 else 0
  notMem : QueryAction.replyFail ∉ r.2

theorem succeeds (group : Nat) (readSet : ReadSet) (resultHash result : Bytes) :
    pq.Succeeds (pq.queryResultCallback p (.success group readSet resultHash result)) := by
  have hadd (pq : ClientPendingQuery) : (pq.toTransaction p).isOk = false ∧ .replyFail ≠ pq.toTransaction p := by
    unfold toTransaction
    split_ifs <;> exact ⟨rfl, nofun⟩
  simp only [queryResultCallback]
  split
  · rename_i hne
    exact ⟨rfl, rfl, rfl, (if_neg hne).symm, not_mem_nil⟩
  rename_i heq
  refine ⟨rfl, rfl, rfl, ?_, ?_⟩
  · rw [countP_cons, (hadd _).1]
    exact (if_pos (not_not.mp heq)).symm
  · simp [(hadd _).2]

/-- The callback reports a result in each round of replies with one of every group. -/
theorem countP_isOk (p : ClientQueryParams) (pq : ClientPendingQuery) (replies : List GroupReply) :
    ∃ round rounds, replies.splitOnP isFailure = round :: rounds ∧
    (pq.actions p replies).countP isOk = (if pq.groupReplies < pq.involvedGroups.length ∧
        pq.involvedGroups.length ≤ pq.groupReplies + round.length then 1 else 0) +
      rounds.countP fun round => pq.involvedGroups.length ≤ round.length := by
  induction replies generalizing pq with
  | nil => exact ⟨[], [], rfl, (if_neg (by rw [length_nil]; omega)).symm⟩
  | cons reply replies ih =>
    cases reply with
    | failure =>
      obtain ⟨round, rounds, hsplit, hcount⟩ := ih (pq.retryQuery p).1
      refine ⟨[], round :: rounds, by rw [splitOnP_cons_eq_if_modifyHead, hsplit]; rfl, ?_⟩
      have hacts : (pq.retryQuery p).2.countP isOk = 0 := by
        rw [countP_eq_zero]
        unfold retryQuery
        split_ifs <;> simp +contextual [or_imp, isOk, forall_and]
      have hpos := length_pos_of_ne_nil pq.involved
      rw [actions_cons, queryResultCallback, countP_append, hacts, hcount,
        show (pq.retryQuery p).1.groupReplies = 0 from rfl,
        show (pq.retryQuery p).1.involvedGroups = pq.involvedGroups from rfl, countP_cons]
      simp only [length_nil, Nat.add_zero, Nat.zero_add, decide_eq_true_eq, hpos, true_and]
      split_ifs <;> omega
    | success group readSet resultHash result =>
      have hs := pq.succeeds (p := p) group readSet resultHash result
      obtain ⟨round, rounds, hsplit, hcount⟩ :=
        ih (pq.queryResultCallback p (.success group readSet resultHash result)).1
      refine ⟨.success group readSet resultHash result :: round, rounds,
        by rw [splitOnP_cons_eq_if_modifyHead, hsplit]; rfl, ?_⟩
      rw [actions_cons, countP_append, hs.countP, hcount, hs.involvedGroups, hs.groupReplies, length_cons]
      split_ifs <;> omega

theorem replyFail_mem (p : ClientQueryParams) (pq : ClientPendingQuery) (replies : List GroupReply) :
    replyFail ∈ pq.actions p replies ↔ -1 < p.retryLimit ∧ 0 < replies.countP isFailure ∧
      p.retryLimit < pq.version + replies.countP isFailure := by
  induction replies generalizing pq with
  | nil => simp [actions]
  | cons reply replies ih =>
    rw [actions_cons, mem_append, countP_cons]
    cases reply with
    | failure =>
      have hacts : replyFail ∈ (pq.retryQuery p).2 ↔ -1 < p.retryLimit ∧ p.retryLimit ≤ pq.version := by
        unfold retryQuery
        split_ifs with h
        · simpa using h
        · simpa using h
      rw [queryResultCallback, hacts, ih, show (pq.retryQuery p).1.version = pq.version + 1 from rfl, if_pos (by rfl)]
      omega
    | success group readSet resultHash result =>
      have hs := pq.succeeds (p := p) group readSet resultHash result
      rw [ih, hs.version, if_neg (by rw [isFailure]; exact nofun), Nat.add_zero]
      exact or_iff_right hs.notMem

theorem exists_further (h : replyFail ∈ pq.actions p replies) : ∃ before after,
    pq.actions p replies = before ++ .replyFail :: after ∧ ∃ a ∈ after, a.isFurther = true := by
  induction replies generalizing pq with
  | nil => cases h
  | cons reply replies ih =>
    rw [actions_cons] at h ⊢
    rcases mem_append.mp h with h | h
    · cases reply with
      | failure =>
        obtain ⟨group, hgroup⟩ := exists_mem_of_ne_nil _ pq.involved
        simp only [queryResultCallback, retryQuery] at h ⊢
        split at h
        · rename_i hlimit
          rw [if_pos hlimit, append_assoc, append_assoc, singleton_append]
          exact ⟨_, _, rfl, .retry group (pq.version + 1), mem_append_left _ (mem_map.mpr ⟨group, hgroup, rfl⟩), rfl⟩
        · simp at h
      | success group readSet resultHash result => exact absurd h (pq.succeeds group readSet resultHash result).notMem
    · obtain ⟨before, after, heq, hfurther⟩ := ih h
      exact ⟨_ ++ before, after, by rw [heq, append_assoc], hfurther⟩

def sent (pq : ClientPendingQuery) : ClientPendingQuery := { pq with version := 0, groupReplies := 0 }

/-- The callback of a query is invoked once at most, and a failure ends it, exactly if there are no more failures than
retries, and not two rounds of replies of every group between failures. -/
theorem repliesOnce_iff (p : ClientQueryParams) (pq : ClientPendingQuery) (replies : List GroupReply) :
    RepliesOnce (pq.sent.actions p replies) ↔ (-1 < p.retryLimit → replies.countP isFailure ≤ p.retryLimit) ∧
      (replies.splitOnP isFailure).countP (fun round => pq.involvedGroups.length ≤ round.length) ≤ 1 := by
  obtain ⟨round, rounds, hsplit, hcount⟩ := countP_isOk p pq.sent replies
  have hmem := replyFail_mem p pq.sent replies
  have hpos := length_pos_of_ne_nil pq.involved
  have hrounds : (pq.sent.actions p replies).countP isOk =
      (replies.splitOnP isFailure).countP fun round => pq.involvedGroups.length ≤ round.length := by
    rw [hcount, hsplit, countP_cons, Nat.add_comm]
    simp only [sent, hpos, true_and, Nat.zero_add, decide_eq_true_eq]
    split_ifs <;> rfl
  rw [← hrounds]
  constructor
  · rintro ⟨honce, hend⟩
    refine ⟨fun hlimit => ?_, (countP_mono_left fun a _ ha => ?_).trans honce⟩
    · by_contra hlt
      have hfail := hmem.mpr ⟨hlimit, by omega, by simpa [sent] using hlt⟩
      obtain ⟨before, after, heq, a, ha, hfurther⟩ := exists_further hfail
      rw [hend before after heq a ha] at hfurther
      cases hfurther
    · rw [isReply, ha, Bool.true_or]
  · rintro ⟨hlimit, honce⟩
    have hno : replyFail ∉ pq.sent.actions p replies := by
      intro h
      obtain ⟨h₁, -, h₂⟩ := hmem.mp h
      simp only [sent] at h₂
      omega
    refine ⟨?_, fun before after heq => absurd (heq ▸ mem_append_right _ mem_cons_self) hno⟩
    rwa [countP_congr fun a ha => ?_]
    have hne : (a == .replyFail) = false := beq_eq_false_iff_ne.mpr fun he => hno (he ▸ ha)
    rw [isReply, hne, Bool.or_false]

/-- Without retries, a failure is reported, and the query goes on to a result. -/
theorem reply_after_failure :
    let pq : ClientPendingQuery := { queryId := [1], involvedGroups := [0], involved := nofun, txnGroups := [0] }
    pq.sent.actions ⟨true, false, 0⟩ [.failure, .success 0 ⟨[], [], []⟩ [2] [3]] =
      [.abort 0, .replyFail, .retry 0 1, .addQuery ⟨[1], 1, [(0, ⟨some [2], none⟩)]⟩ [], .replyOk [3]] := by
  decide

end ClientPendingQuery

end Pequin
