import Pequin.Model.KeyValue
import Pequin.Proof.ReadQuorum

/-!
# Reading one's own writes

A transaction that writes a key twice has both writes in its write set. `BufferGet` returns the first one, and the
store of a replica keeps the first one in the order of the write set, which `Commit` may have sorted.
-/

namespace Pequin

open Function KVClient List Option WriteMessage

variable {l : List WriteMessage} {v key : Bytes} {parallelCCC : Bool} {p : Nat → ReadParams} {es : List KVEvent}
  {s₀ s s' : KVClient} {group : Nat}

section

variable (es group)

def putValues (key : Bytes) : List Bytes :=
  es.filterMap fun
    | .put _ key' value => if key' = key then some value else none
    | _ => none

def groupValues (key : Bytes) : List Bytes :=
  es.filterMap fun
    | .put group' key' value => if group' = group ∧ key' = key then some value else none
    | _ => none

def putWrites : List WriteMessage :=
  es.filterMap fun
    | .put _ key value => some { key := key, value := some value }
    | _ => none

def shardWrites : List (Bytes × Bytes) :=
  es.filterMap fun
    | .put group' key value => if group' = group then some (key, value) else none
    | _ => none

end

def ReadEvent.OfGet : ReadEvent → Prop
  | .get _ | .readReply _ _ | .getTimeout _ => True
  | _ => False

theorem ReadClient.step_writeSet {p : ReadParams} {s s' : ReadClient} {e : ReadEvent} (h : step p s e = some s')
    (he : e.OfGet) : s'.writeSet = s.writeSet := by
  cases e with
  | get key =>
    simp only [ReadClient.step] at h
    split at h <;> cases h <;> rfl
  | readReply sender reply =>
    simp only [ReadClient.step] at h
    split at h
    · cases h
      rfl
    obtain ⟨⟨req, done⟩, -, rfl⟩ := map_eq_some_iff.mp h
    cases done with
    | false => rfl
    | true =>
      simp only [↓reduceIte, finishGet]
      split <;> rfl
  | getTimeout reqId =>
    cases h
    rfl
  | _ => cases he

namespace KVClient

variable {past : List KVEvent} {e : KVEvent}

/-- The client and its shard clients hold the puts so far. -/
structure Buffered (past : List KVEvent) (s : KVClient) : Prop where
  client : s.writeSet = putWrites past
  shard : ∀ g, if g ∈ s.involvedGroups then (s.shards g).writeSet = shardWrites past g else shardWrites past g = []

theorem onShard_eq_some {ev : ReadEvent} (h : s.onShard p group ev = some s') :
    ∃ c, ReadClient.step (p group) (s.shards group) ev = some c ∧
      s' = { s with shards := update s.shards group c } := by
  obtain ⟨c, hc, rfl⟩ := map_eq_some_iff.mp h
  exact ⟨c, hc, rfl⟩

theorem Buffered.participate (h : Buffered past s) (hs : s.participate p group = some s') :
    Buffered past s' ∧ group ∈ s'.involvedGroups ∧ (s'.shards group).results = (s.shards group).results := by
  unfold KVClient.participate at hs
  split at hs
  · rename_i hin
    cases hs
    exact ⟨h, hin, rfl⟩
  rename_i hout
  obtain ⟨c, hc, rfl⟩ := onShard_eq_some hs
  cases hc
  refine ⟨⟨h.client, fun g => ?_⟩, mem_append_right _ (mem_singleton_self _), by simp⟩
  by_cases hg : g = group
  · -- nothing was written to the group
    have hnone := h.shard g
    rw [hg, if_neg hout] at hnone
    rw [hg, hnone]
    simp
  · have hold := h.shard g
    simpa [hg] using hold

theorem Buffered.onShard {ev : ReadEvent} (h : Buffered past s) (hs : s.onShard p group ev = some s')
    (he : ev.OfGet) : Buffered past s' := by
  obtain ⟨c, hc, rfl⟩ := onShard_eq_some hs
  refine ⟨h.client, fun g => ?_⟩
  have hold := h.shard g
  by_cases hg : g = group
  · subst hg
    simpa [ReadClient.step_writeSet hc he] using hold
  · simpa [hg] using hold

theorem Buffered.snoc (h : Buffered past s) (hw : putWrites [e] = []) (hsh : ∀ g, shardWrites [e] g = []) :
    Buffered (past ++ [e]) s := by
  have hwrites : putWrites (past ++ [e]) = putWrites past := by
    rw [putWrites, filterMap_append]
    exact (congrArg _ hw).trans (append_nil _)
  have hshard (g : Nat) : shardWrites (past ++ [e]) g = shardWrites past g := by
    rw [shardWrites, filterMap_append]
    exact (congrArg _ (hsh g)).trans (append_nil _)
  exact ⟨h.client.trans hwrites.symm, fun g => by rw [hshard]; exact h.shard g⟩

theorem Buffered.step (h : Buffered past s) (hs : step p s e = some s') : Buffered (past ++ [e]) s' := by
  cases e with
  | put g key value =>
    obtain ⟨s₁, hpart, hput⟩ := bind_eq_some_iff.mp hs
    obtain ⟨h₁, hin, -⟩ := h.participate hpart
    obtain ⟨c, hc, rfl⟩ := onShard_eq_some hput
    cases hc
    refine ⟨?_, fun g' => ?_⟩
    · show s₁.writeSet ++ _ = _
      rw [h₁.client, putWrites, putWrites, filterMap_append]
      rfl
    have hold := h₁.shard g'
    show if g' ∈ s₁.involvedGroups then (update s₁.shards g _ g').writeSet = _ else _
    by_cases hg : g' = g
    · subst hg
      rw [if_pos hin] at hold ⊢
      rw [update_self, hold]
      simp [shardWrites]
    · rw [update_of_ne hg]
      simpa [shardWrites, Ne.symm hg] using hold
  | get g key =>
    obtain ⟨s₁, hpart, hget⟩ := bind_eq_some_iff.mp hs
    exact ((h.participate hpart).1.onShard hget trivial).snoc rfl fun _ => rfl
  | readReply g sender reply | getTimeout g reqId => exact (h.onShard hs trivial).snoc rfl fun _ => rfl

theorem buffered_of_run (hrun : Run.exec (step p) s.begin es = some s') : Buffered es s' := by
  rw [← nil_append es]
  refine Run.exec_history_of_meets (fun h _ hs => Buffered.step h hs) ?_ (Run.meets_true _ es) hrun
  exact ⟨rfl, fun g => by simp [begin, shardWrites]⟩

end KVClient

theorem find?_shardWrites :
    ((shardWrites es group).find? fun w => w.1 == key).map Prod.snd = (groupValues es group key).head? := by
  induction es with
  | nil => rfl
  | cons e es ih =>
    cases e with
    | put g key' value =>
      by_cases hg : g = group
      · by_cases hk : key' = key
        · simp [shardWrites, groupValues, hg, hk]
        · simpa [shardWrites, groupValues, hg, hk] using ih
      · simpa [shardWrites, groupValues, hg] using ih
    | _ => exact ih

theorem storedValue_eq_find? {cc : CCParams} (hown : cc.isKeyOwned key = true)
    (hl : ∀ w ∈ l, w.isTableColVersion = false ∧ w.value.isSome = true) (val : Bytes) :
    storedValue cc key l val = (l.find? fun w => w.key == key).bind value := by
  induction l generalizing val with
  | nil => rfl
  | cons w l ih =>
    have ih := ih fun w' hw' => hl w' (mem_cons_of_mem w hw')
    obtain ⟨htable, hvalue⟩ := hl w mem_cons_self
    obtain ⟨v, hv⟩ := isSome_iff_exists.mp hvalue
    rw [storedValue, htable, Bool.false_or]
    by_cases hk : w.key = key
    · simp [hk, hown, hv]
    have hk' : (w.key == key) = false := by simpa using hk
    rw [List.find?_cons, hk']
    split
    · exact ih val
    · exact ih _

theorem putWrites_spec {w : WriteMessage} (h : w ∈ putWrites es) :
    w.isTableColVersion = false ∧ w.value.isSome = true := by
  obtain ⟨e, -, he⟩ := mem_filterMap.mp h
  cases e with
  | put g key value =>
    cases he
    exact ⟨rfl, rfl⟩
  | _ => cases he

theorem filter_putWrites (es : List KVEvent) (key : Bytes) :
    ((putWrites es).filter fun w => w.key == key).map value = (putValues es key).map some := by
  induction es with
  | nil => rfl
  | cons e es ih =>
    cases e with
    | put g key' value =>
      by_cases hk : key' = key <;> simpa [putWrites, putValues, hk] using ih
    | _ => exact ih

theorem find?_putWrites (es : List KVEvent) (key : Bytes) :
    ((putWrites es).find? fun w => w.key == key).bind value = (putValues es key).head? := by
  have hhead := congrArg List.head? (filter_putWrites es key)
  rw [List.head?_map, List.head?_map, List.head?_filter] at hhead
  calc ((putWrites es).find? fun w => w.key == key).bind value
      = (((putWrites es).find? fun w => w.key == key).map value).bind id := by rw [bind_map, id_comp]
    _ = ((putValues es key).head?.map some).bind id := by rw [hhead]
    _ = (putValues es key).head? := by rw [bind_map, id_comp, bind_fun_some]

theorem find?_insertionSort_cons (w : WriteMessage) :
    ((w :: l).insertionSort fun a b => ¬ b.key < a.key).find? (fun x => x.key == w.key) = some w := by
  rw [insertionSort_cons]
  induction l.insertionSort fun a b => ¬ b.key < a.key with
  | nil => simp
  | cons x l ih =>
    rw [orderedInsert_cons]
    split
    · simp
    rename_i hlt
    rw [not_not] at hlt
    have hne : (x.key == w.key) = false := beq_eq_false_iff_ne.mpr fun heq => List.lt_irrefl _ (heq ▸ hlt)
    rw [List.find?_cons, hne]
    exact ih

theorem pairwise_insertionSort_key :
    (l.insertionSort fun a b => ¬ b.key < a.key).Pairwise fun a b => ¬ b.key < a.key := by
  have : Std.Total fun a b : WriteMessage => ¬ b.key < a.key := ⟨fun a b => List.le_total a.key b.key⟩
  have : IsTrans WriteMessage fun a b => ¬ b.key < a.key := ⟨fun a b c => List.le_trans⟩
  exact pairwise_insertionSort _ l

namespace KVClient

theorem get_own (h : Buffered es s) (hv : (groupValues es group key).head? = some v) :
    ∃ s', step p s (.get group key) = some s' ∧
      (s'.shards group).results = (s.shards group).results ++ [⟨none, key, v, ⟨0, 0⟩, none, false⟩] := by
  obtain ⟨⟨key', v'⟩, hfind, rfl⟩ := map_eq_some_iff.mp (find?_shardWrites.trans hv)
  have hin : group ∈ s.involvedGroups := by
    by_contra hout
    have hnone := h.shard group
    rw [if_neg hout] at hnone
    rw [hnone] at hfind
    cases hfind
  have hwrites := h.shard group
  rw [if_pos hin] at hwrites
  have hbuffer : (s.shards group).bufferGet key = some ⟨none, key, v', ⟨0, 0⟩, none, false⟩ := by
    rw [ReadClient.bufferGet, hwrites, hfind]
  have hstep : ReadClient.step (p group) (s.shards group) (.get key) = some { s.shards group with
        results := (s.shards group).results ++ [⟨none, key, v', ⟨0, 0⟩, none, false⟩] } := by
    simp only [ReadClient.step, hbuffer]
  refine ⟨{ s with shards := update s.shards group { s.shards group with
    results := (s.shards group).results ++ [⟨none, key, v', ⟨0, 0⟩, none, false⟩] } }, ?_, ?_⟩
  · simp only [step, participate, if_pos hin, bind_some, onShard, hstep, map_some]
  · show (update s.shards group _ group).results = _
    rw [update_self]

theorem Commits.perm (h : Commits parallelCCC s l) : l.Perm s.writeSet := by
  cases parallelCCC with
  | true => exact h.1
  | false => exact .of_eq h

theorem Commits.storedValue_eq {cc : CCParams}
    (h : Commits parallelCCC s l) (hb : Buffered es s) (hown : cc.isKeyOwned key = true) :
    storedValue cc key l [] = (l.find? fun w => w.key == key).bind value :=
  storedValue_eq_find? hown (fun _ hw => putWrites_spec (hb.client ▸ h.perm.mem_iff.mp hw)) []

end KVClient

theorem mem_putWrites (h : v ∈ putValues es key) : (⟨key, some v, false⟩ : WriteMessage) ∈ putWrites es := by
  obtain ⟨e, he, hv⟩ := mem_filterMap.mp h
  refine mem_filterMap.mpr ⟨e, he, ?_⟩
  cases e with
  | put g key' value =>
    obtain ⟨rfl, hval⟩ := ite_none_right_eq_some.mp hv
    cases hval
    rfl
  | _ => cases hv

theorem putValues_ne_nil (h : groupValues es group key ≠ []) : putValues es key ≠ [] := by
  obtain ⟨v, hv⟩ := exists_mem_of_ne_nil _ h
  obtain ⟨e, he, hv⟩ := mem_filterMap.mp hv
  refine ne_nil_of_mem (mem_filterMap.mpr ⟨e, he, (?_ : _ = some v)⟩)
  cases e with
  | put g key' value =>
    obtain ⟨⟨-, hk⟩, hval⟩ := ite_none_right_eq_some.mp hv
    exact (if_pos hk).trans hval
  | _ => cases hv

namespace KVClient

variable {cc : CCParams}

theorem Commits.stored_mem (h : Commits parallelCCC s l)
    (hb : Buffered es s) (hown : cc.isKeyOwned key = true) (hput : putValues es key ≠ []) :
    ∃ v ∈ putValues es key, storedValue cc key l [] = some v := by
  have hperm : ((l.filter fun w => w.key == key).map value).Perm ((putValues es key).map some) := by
    rw [← filter_putWrites, ← hb.client]
    exact (h.perm.filter _).map _
  cases hw : l.find? fun w => w.key == key with
  | none =>
    have hnil : l.filter (fun w => w.key == key) = [] := by
      rw [← List.head?_eq_none_iff, List.head?_filter, hw]
    rw [hnil] at hperm
    exact absurd (map_eq_nil_iff.mp hperm.symm.eq_nil) hput
  | some w =>
    have hmem : w ∈ l.filter fun w => w.key == key := by
      refine mem_of_mem_head? ?_
      rw [List.head?_filter, hw]
      rfl
    obtain ⟨v, hv, hval⟩ := mem_map.mp (hperm.mem_iff.mp (mem_map_of_mem hmem))
    refine ⟨v, hv, ?_⟩
    rw [h.storedValue_eq hb hown, hw, hval]
    rfl

theorem exists_commits_stored (hb : Buffered es s) (hown : cc.isKeyOwned key = true)
    (hv : v ∈ putValues es key) : ∃ l, Commits true s l ∧ storedValue cc key l [] = some v := by
  let w : WriteMessage := ⟨key, some v, false⟩
  have hw : w ∈ s.writeSet := hb.client ▸ mem_putWrites hv
  let l := (w :: s.writeSet.erase w).insertionSort fun a b => ¬ b.key < a.key
  have hl : Commits true s l :=
    ⟨(perm_insertionSort _ _).trans (perm_cons_erase hw).symm, pairwise_insertionSort_key⟩
  refine ⟨l, hl, ?_⟩
  rw [hl.storedValue_eq hb hown, find?_insertionSort_cons w]
  rfl

/-- A `Get` returns the latest value put exactly if the first put of the key to its group has it. The last value is
committed exactly if the first put has it or, with a sorted write set, exactly if all have it. -/
theorem own_writes_iff (group : Nat) (key : Bytes) (cc : CCParams) (parallelCCC : Bool)
    (hrun : Run.exec (step p) s₀.begin es = some s) (hput : groupValues es group key ≠ [])
    (hown : cc.isKeyOwned key = true) :
    ((∃ s' r, step p s (.get group key) = some s' ∧ (s'.shards group).results = (s.shards group).results ++ [r] ∧
        r.key = key ∧ some r.value = (putValues es key).getLast?) ↔
      (groupValues es group key).head? = (putValues es key).getLast?) ∧
    ((∀ l, s.Commits parallelCCC l → storedValue cc key l [] = (putValues es key).getLast?) ↔
      if parallelCCC then ∀ v ∈ putValues es key, some v = (putValues es key).getLast?
      else (putValues es key).head? = (putValues es key).getLast?) := by
  have hb := buffered_of_run hrun
  obtain ⟨v, hv⟩ := ne_none_iff_exists'.mp (mt List.head?_eq_none_iff.mp hput)
  obtain ⟨s', hstep, hresults⟩ := get_own (p := p) hb hv
  refine ⟨⟨?_, fun heq => ?_⟩, ?_⟩
  · rintro ⟨s₁, r, hstep₁, hresults₁, -, hvalue⟩
    cases hstep.symm.trans hstep₁
    cases append_cancel_left (hresults.symm.trans hresults₁)
    exact hv.trans hvalue
  · exact ⟨s', _, hstep, hresults, rfl, hv.symm.trans heq⟩
  · cases parallelCCC with
    | true =>
      refine ⟨fun h v hv => ?_, fun h l hl => ?_⟩
      · obtain ⟨l, hl, hstored⟩ := exists_commits_stored hb hown hv
        exact hstored.symm.trans (h l hl)
      · obtain ⟨v, hv, hstored⟩ := hl.stored_mem hb hown (putValues_ne_nil hput)
        exact hstored.trans (h v hv)
    | false =>
      have hstored (l : List WriteMessage) (hl : Commits false s l) :
          storedValue cc key l [] = (putValues es key).head? := by
        rw [hl.storedValue_eq hb hown, (hl : l = s.writeSet), hb.client, find?_putWrites]
      exact ⟨fun h => (hstored _ rfl).symm.trans (h _ rfl), fun h l hl => (hstored l hl).trans h⟩

end KVClient

def idleClient : KVClient := ⟨[], [], fun _ => idleReads⟩

def owningReplica : CCParams := ⟨0, fun _ => true, false, false⟩

/-- Key 7 is set to 1 and then to 2: a `Get` returns 1, and 1 is committed. -/
theorem first_write_wins :
    ∃ s s' r, Run.exec (step fun _ => accountReads) idleClient.begin [.put 0 [7] [1], .put 0 [7] [2]] = some s ∧
      step (fun _ => accountReads) s (.get 0 [7]) = some s' ∧
      (s'.shards 0).results = (s.shards 0).results ++ [r] ∧ r.key = [7] ∧ r.value = [1] ∧
      s.Commits false s.writeSet ∧ storedValue owningReplica [7] s.writeSet [] = some [1] ∧ s.Commits true s.writeSet :=
  ⟨_, _, _, rfl, rfl, rfl, rfl, rfl, rfl, rfl, .refl _, by decide⟩

/-- Key 7 is set twice to the same value, with another key in between. -/
def repeatedPuts : List KVEvent := [.put 0 [7] [1], .put 0 [8] [2], .put 0 [7] [1]]

theorem own_writes_iff_repeated :
    ∃ s, Run.exec (step fun _ => accountReads) idleClient.begin repeatedPuts = some s ∧
      (∃ s' r, step (fun _ => accountReads) s (.get 0 [7]) = some s' ∧
        (s'.shards 0).results = (s.shards 0).results ++ [r] ∧ r.key = [7] ∧ some r.value = some [1]) ∧
      ∀ l, s.Commits true l → storedValue owningReplica [7] l [] = some [1] := by
  have hrun : Run.exec (step fun _ => accountReads) idleClient.begin repeatedPuts = some _ := rfl
  obtain ⟨hget, hcommit⟩ := own_writes_iff 0 [7] owningReplica true hrun (by decide) rfl
  exact ⟨_, hrun, hget.mpr rfl, hcommit.mpr (by decide)⟩

end Pequin
