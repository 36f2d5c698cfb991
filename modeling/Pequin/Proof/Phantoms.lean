import Pequin.Model.SemanticCC

/-!
# Phantoms

What a reader with a predicate is safe from once `CheckReadPred` has passed (`PhantomSafe`): the
newest version of every row it has not read does not satisfy the predicate, and an older one that
does is followed by one that does not, which is committed or waited for.

The loop overlooks the first write of the table, writes behind one that is beyond both graces, and
all but the first row of a key in one write (`Overlooked`). `phantomSafe_iff`: the reader is safe
if and only if what is overlooked is harmless. `phantom_first_write` is a table with one write.
-/

namespace Pequin

open List

variable {st st' : PredState} {k : Bytes} {seen : List Encounter} {e : Encounter} {p : SemanticParams}
  {tables : TableWrites} {ts : Timestamp} {pred : ReadPredicate} {readSet : List ReadMessage} {x : RecordedWrite}

/-- A recorded write: its timestamp, its transaction, and whether that is committed. -/
abbrev RecordedWrite := Timestamp × Transaction × Bool

section Safety

variable (p) (tables) (ts) (pred) (readSet)

def recorded : List RecordedWrite := (tables pred.tableName).elim [] TableHistory.writes

def versions (k : Bytes) (x : RecordedWrite) : List RowUpdates :=
  ((x.2.1.tableWrites.lookup pred.tableName).getD []).filter fun row => rowKey x.2.1 row == some k

/-- A write that may be new to the reader: before it, not the table version read, within the first grace, or
non-monotonic and within the second. -/
structure InWindow (x : RecordedWrite) : Prop where
  mem : x ∈ recorded tables pred
  before : x.1 < ts
  other : x.1 ≠ pred.tableVersion
  recent : p.beyond pred.tableVersion x.1 = false
  counts : p.ignores pred.tableVersion x = false

/-- A key of another group, or in the read set. -/
def SemanticParams.skips (k : Bytes) : Bool := !p.isKeyOwned k || readSet.any fun r => r.key == k

/-- The reader misses no row that satisfies its predicate, once `deps` are committed. -/
structure PhantomSafe (deps : List Transaction) : Prop where
  newest : ∀ k, p.skips readSet k = false → ∀ x, InWindow p tables ts pred x → ∀ row ∈ versions pred k x,
    (∀ y, InWindow p tables ts pred y → versions pred k y ≠ [] → y.1 ≤ x.1) → p.satisfies pred row = false
  older : ∀ k, p.skips readSet k = false → ∀ x, InWindow p tables ts pred x → ∀ row ∈ versions pred k x,
    (∃ y, InWindow p tables ts pred y ∧ versions pred k y ≠ [] ∧ x.1 < y.1) → p.satisfies pred row = true →
    ∃ y, InWindow p tables ts pred y ∧ x.1 < y.1 ∧
      (∃ row' ∈ versions pred k y, p.satisfies pred row' = false) ∧ (y.2.2 = true ∨ y.2.1 ∈ deps)

/-- A later version of the key in the window fails the predicate, and is committed or in `awaits`. -/
def Superseded (awaits : Transaction → Prop) (k : Bytes) (x : RecordedWrite) : Prop :=
  ∃ y, InWindow p tables ts pred y ∧ x.1 < y.1 ∧
    (∃ row ∈ versions pred k y, p.satisfies pred row = false) ∧ (y.2.2 = true ∨ awaits y.2.1)

theorem phantomSafe_iff_superseded {deps : List Transaction} : PhantomSafe p tables ts pred readSet deps ↔
    ∀ k, p.skips readSet k = false → ∀ x, InWindow p tables ts pred x → ∀ row ∈ versions pred k x,
      p.satisfies pred row = true → Superseded p tables ts pred (· ∈ deps) k x := by
  constructor
  · intro h k hk x hx row hrow hsat
    by_cases hnew : ∃ y, InWindow p tables ts pred y ∧ versions pred k y ≠ [] ∧ x.1 < y.1
    · exact h.older k hk x hx row hrow hnew hsat
    · have hfalse := h.newest k hk x hx row hrow fun y hy hne =>
        not_lt.mp fun hlt => hnew ⟨y, hy, hne, hlt⟩
      rw [hsat] at hfalse
      cases hfalse
  · intro h
    refine ⟨fun k hk x hx row hrow hmax => ?_, fun k hk x hx row hrow _ hsat => h k hk x hx row hrow hsat⟩
    by_contra hsat
    rw [Bool.not_eq_false] at hsat
    obtain ⟨y, hy, hlt, ⟨row', hrow', -⟩, -⟩ := h k hk x hx row hrow hsat
    exact absurd hlt (not_lt.mpr (hmax y hy (ne_nil_of_mem hrow')))

end Safety

section Reached

variable {tv : Timestamp} {l : List RecordedWrite}

def reached (p : SemanticParams) (tv : Timestamp) : List RecordedWrite → List RecordedWrite
  | [] => []
  | x :: rest =>
    if x.1 = tv then reached p tv rest
    else if p.beyond tv x.1 then []
    else if p.ignores tv x then reached p tv rest
    else x :: reached p tv rest

theorem reached_sublist : (reached p tv l).Sublist l := by
  induction l with
  | nil => exact List.Sublist.refl _
  | cons x l ih =>
    rw [reached]
    split
    · exact ih.cons x
    split
    · exact nil_sublist _
    · split
      · exact ih.cons x
      · exact ih.cons_cons x

/-- From the latest write down, those are reached that are not behind one beyond both graces. -/
theorem mem_reached (hl : l.Pairwise fun a b => b.1 < a.1) : x ∈ reached p tv l ↔
    x ∈ l ∧ x.1 ≠ tv ∧ p.ignores tv x = false ∧ ∀ y ∈ l, x.1 ≤ y.1 → y.1 ≠ tv → p.beyond tv y.1 = false := by
  induction l with
  | nil => simp [reached]
  | cons z l ih =>
    rw [pairwise_cons] at hl
    rw [reached]
    split
    · grind
    · split
      · grind
      · split <;> grind

theorem mem_below {h : TableHistory} : x ∈ h.below ts ↔ x ∈ h.writes ∧ x.1 < ts ∧ ∃ y ∈ h.writes, y.1 < x.1 := by
  have hs := h.sorted.filter fun x => decide (x.1 < ts)
  rw [TableHistory.below, mem_reverse]
  cases hl : h.writes.filter fun x => decide (x.1 < ts) with
  | nil =>
    refine ⟨nofun, fun ⟨h₁, h₂, _⟩ => ?_⟩
    have : x ∈ h.writes.filter fun x => decide (x.1 < ts) := mem_filter.mpr ⟨h₁, decide_eq_true h₂⟩
    rw [hl] at this
    exact this
  | cons z l =>
    rw [hl, pairwise_cons] at hs
    have hmem : ∀ {y}, y ∈ z :: l ↔ y ∈ h.writes ∧ y.1 < ts := fun {y} => by
      rw [← hl, mem_filter, decide_eq_true_eq]
    constructor
    · intro hx
      obtain ⟨h₁, h₂⟩ := hmem.mp (mem_cons_of_mem z hx)
      exact ⟨h₁, h₂, z, (hmem.mp mem_cons_self).1, hs.1 x hx⟩
    rintro ⟨h₁, h₂, y, hy, hlt⟩
    rcases mem_cons.mp (hmem.mpr ⟨h₁, h₂⟩) with rfl | hx
    · -- the first one has no earlier write
      rcases mem_cons.mp (hmem.mpr ⟨hy, hlt.trans h₂⟩) with rfl | hy
      · exact absurd hlt (lt_irrefl _)
      · exact absurd hlt (hs.1 y hy).not_gt
    · exact hx

theorem pairwise_below (h : TableHistory) : (h.below ts).Pairwise fun a b => b.1 < a.1 :=
  pairwise_reverse.mpr ((h.sorted.filter _).tail)

end Reached

section Loop

/-- A row of a write that the check comes to. -/
structure Encounter where
  write : RecordedWrite
  row : RowUpdates
  key : Bytes

def encounters (pred : ReadPredicate) (x : RecordedWrite) : List Encounter :=
  ((x.2.1.tableWrites.lookup pred.tableName).getD []).filterMap fun row =>
    (rowKey x.2.1 row).map fun k => ⟨x, row, k⟩

/-- The loop, on the rows it comes to. -/
def replay (p : SemanticParams) (pred : ReadPredicate) (readSet : List ReadMessage) (l : List Encounter)
    (st : PredState) : Except Result PredState :=
  l.foldlM (fun st e => checkRow p pred readSet e.write.2.1 e.write.2.2 e.row e.key st) st

theorem replay_append (l l' : List Encounter) :
    replay p pred readSet (l ++ l') st = replay p pred readSet l st >>= replay p pred readSet l' := by
  rw [replay, foldlM_append]
  rfl

theorem replay_error {l : List Encounter} {res : Result} (h : replay p pred readSet l st = .error res) :
    res = .abstain := by
  induction l generalizing st with
  | nil => cases h
  | cons e l ih =>
    rw [replay, foldlM_cons] at h
    cases hrow : checkRow p pred readSet e.write.2.1 e.write.2.2 e.row e.key st with
    | ok st₁ =>
      rw [hrow] at h
      exact ih h
    | error res' =>
      rw [hrow] at h
      cases h
      rw [checkRow] at hrow
      split at hrow
      · cases hrow
      split at hrow
      · cases hrow
      · cases hrow
      split at hrow
      · cases hrow
      split at hrow
      · cases hrow
        rfl
      · cases hrow

variable {out : Except Result PredState}

theorem replay_of_checkRows {rows : List RowUpdates} (h : checkRows p pred readSet x.2.1 x.2.2 rows st = some out) :
    replay p pred readSet (rows.filterMap fun row => (rowKey x.2.1 row).map fun k => ⟨x, row, k⟩) st = out := by
  induction rows generalizing st with
  | nil =>
    cases h
    rfl
  | cons row rows ih =>
    rw [checkRows] at h
    split at h
    · cases h
    rename_i k hk
    rw [filterMap_cons, hk, replay, Option.map_some, foldlM_cons]
    split at h
    · rename_i res hres
      cases h
      rw [hres]
      rfl
    · rename_i st₁ hst
      rw [hst]
      exact ih h

theorem replay_of_checkWrites {l : List RecordedWrite} (h : checkWrites p pred readSet l st = some out) :
    replay p pred readSet ((reached p pred.tableVersion l).flatMap (encounters pred)) st = out := by
  induction l generalizing st with
  | nil =>
    cases h
    rfl
  | cons x l ih =>
    rw [checkWrites] at h
    rw [reached]
    split at h
    · cases h
    by_cases htv : x.1 = pred.tableVersion
    · rw [if_pos htv] at h ⊢
      exact ih h
    rw [if_neg htv] at h ⊢
    by_cases hbeyond : p.beyond pred.tableVersion x.1 = true
    · rw [if_pos hbeyond] at h ⊢
      cases h
      rfl
    rw [if_neg hbeyond] at h ⊢
    by_cases hig : p.ignores pred.tableVersion x = true
    · rw [if_pos hig] at h ⊢
      exact ih h
    rw [if_neg hig] at h ⊢
    split at h
    · cases h
    rename_i rows hrows
    rw [flatMap_cons, encounters, hrows, Option.getD_some, replay_append]
    split at h
    · rename_i st₁ hst
      rw [replay_of_checkRows hst]
      exact ih h
    · rename_i hne
      rw [replay_of_checkRows h]
      cases out with
      | error res => rfl
      | ok st₁ => exact absurd h (hne st₁)

def ofKey (p : SemanticParams) (readSet : List ReadMessage) (k : Bytes) (l : List Encounter) : List Encounter :=
  if p.skips readSet k then [] else l.filter fun e => e.key == k

/-- The candidate of a key: the newest write, if it is prepared. It is active once there is a second
row. -/
def candidateOf : List Encounter → Option (Bool × Transaction)
  | [] => none
  | e :: rest => if e.write.2.2 then none else some (!rest.isEmpty, e.write.2.1)

/-- The state of the loop after some rows. -/
structure Seen (p : SemanticParams) (pred : ReadPredicate) (readSet : List ReadMessage) (st : PredState)
    (seen : List Encounter) : Prop where
  candidates : ∀ k, st.candidates.lookup k = candidateOf (ofKey p readSet k seen)
  active : ∀ k, k ∈ st.activeKeys ↔ ofKey p readSet k seen ≠ []
  newest : ∀ k e rest, ofKey p readSet k seen = e :: rest → p.satisfies pred e.row = false

theorem ofKey_concat : ofKey p readSet k (seen ++ [e]) =
    ofKey p readSet k seen ++ if p.skips readSet k = false ∧ e.key = k then [e] else [] := by
  rw [ofKey, ofKey]
  by_cases hs : p.skips readSet k = true
  · simp [hs]
  · rw [Bool.not_eq_true] at hs
    by_cases hk : e.key = k <;> simp [hs, hk, filter_append]

theorem skips_of_ofKey {rest : List Encounter}
    (h : ofKey p readSet k seen = e :: rest) : p.skips readSet k = false := by
  by_contra hs
  rw [Bool.not_eq_false] at hs
  rw [ofKey, if_pos hs] at h
  cases h

theorem Seen.skip (h : Seen p pred readSet st seen)
    (hs : p.skips readSet e.key = true) : Seen p pred readSet st (seen ++ [e]) := by
  have hsame : ∀ k, ofKey p readSet k (seen ++ [e]) = ofKey p readSet k seen := fun k => by
    rw [ofKey_concat, if_neg, append_nil]
    rintro ⟨hno, rfl⟩
    rw [hs] at hno
    cases hno
  exact ⟨fun k => by rw [hsame]; exact h.candidates k, fun k => by rw [hsame]; exact h.active k,
    fun k e₁ rest heq => h.newest k e₁ rest (by rw [← hsame]; exact heq)⟩

theorem Seen.update (h : Seen p pred readSet st seen) (hs : p.skips readSet e.key = false)
    (hself : st'.candidates.lookup e.key = candidateOf (ofKey p readSet e.key seen ++ [e]))
    (hother : ∀ k ≠ e.key, st'.candidates.lookup k = st.candidates.lookup k)
    (hactive : ∀ k, k ∈ st'.activeKeys ↔ k = e.key ∨ k ∈ st.activeKeys)
    (hnewest : ofKey p readSet e.key seen = [] → p.satisfies pred e.row = false) :
    Seen p pred readSet st' (seen ++ [e]) := by
  have hadd : ofKey p readSet e.key (seen ++ [e]) = ofKey p readSet e.key seen ++ [e] := by
    rw [ofKey_concat, if_pos ⟨hs, rfl⟩]
  have hsame : ∀ k ≠ e.key, ofKey p readSet k (seen ++ [e]) = ofKey p readSet k seen := fun k hk => by
    rw [ofKey_concat, if_neg fun hc => hk hc.2.symm, append_nil]
  refine ⟨fun k => ?_, fun k => ?_, fun k e₁ rest heq => ?_⟩
  · by_cases hk : k = e.key
    · rw [hk, hadd]
      exact hself
    · rw [hother k hk, hsame k hk]
      exact h.candidates k
  · rw [hactive k]
    by_cases hk : k = e.key
    · rw [hk, hadd]
      simp
    · rw [hsame k hk, ← h.active k]
      simp [hk]
  · by_cases hk : k = e.key
    · subst hk
      rw [hadd] at heq
      cases hold : ofKey p readSet e.key seen with
      | nil =>
        rw [hold] at heq
        cases heq
        exact hnewest hold
      | cons e₀ rest₀ =>
        rw [hold] at heq
        cases heq
        exact h.newest _ _ rest₀ hold
    · rw [hsame k hk] at heq
      exact h.newest k e₁ rest heq

theorem Seen.step (h : Seen p pred readSet st seen)
    (hst : checkRow p pred readSet e.write.2.1 e.write.2.2 e.row e.key st = .ok st') :
    Seen p pred readSet st' (seen ++ [e]) := by
  have hcand := h.candidates e.key
  have hactive := h.active e.key
  rw [checkRow] at hst
  split at hst
  · -- a key of another group
    rename_i hown
    cases hst
    exact h.skip (by rw [SemanticParams.skips, hown, Bool.true_or])
  rename_i hown
  rw [Bool.not_eq_true, Bool.not_eq_false'] at hown
  cases hk : ofKey p readSet e.key seen with
  | nil =>
    rw [hk] at hcand hactive
    rw [hcand] at hst
    dsimp only [candidateOf] at hst
    have hnot : st.activeKeys.contains e.key = false := by
      rw [← Bool.not_eq_true, contains_iff_mem, hactive]
      simp
    rw [hnot, Bool.false_or] at hst
    split at hst
    · -- a key of the read set
      rename_i hread
      cases hst
      exact h.skip (by rw [SemanticParams.skips, hread, Bool.or_true])
    · -- the first row of the key
      rename_i hread
      rw [Bool.not_eq_true] at hread
      split at hst
      · cases hst
      rename_i hsat
      cases hst
      refine h.update (by rw [SemanticParams.skips, hown, hread]; rfl) ?_ (fun k hne => ?_) (fun k => ?_)
        fun _ => by simpa using hsat
      · rw [hk, nil_append, candidateOf]
        split
        · rw [AList.lookup_erase]
        · rw [AList.lookup_insert]
          rfl
      · dsimp only
        split
        · rw [AList.lookup_erase_ne hne]
        · rw [AList.lookup_insert_ne hne]
      · exact mem_insert_iff
  | cons e₀ rest =>
    -- the key was evaluated before
    rw [hk] at hcand hactive
    have hs := skips_of_ofKey hk
    have hmem : e.key ∈ st.activeKeys := hactive.mpr (by simp)
    have hkeys : ∀ k, k ∈ st.activeKeys ↔ k = e.key ∨ k ∈ st.activeKeys := fun k =>
      ⟨.inr, fun hor => hor.elim (fun heq => heq ▸ hmem) id⟩
    have hne : ofKey p readSet e.key seen = [] → p.satisfies pred e.row = false := fun hnil => by
      rw [hk] at hnil
      cases hnil
    rw [hcand, candidateOf] at hst
    cases hp : e₀.write.2.2 with
    | true =>
      rw [hp, if_pos rfl] at hst
      rw [contains_iff_mem.mpr hmem, Bool.true_or, if_pos rfl] at hst
      cases hst
      refine h.update hs ?_ (fun _ _ => rfl) hkeys hne
      rw [hcand, hk, cons_append, candidateOf, candidateOf, hp, if_pos rfl, if_pos rfl]
    | false =>
      rw [hp, if_neg Bool.false_ne_true] at hst
      cases rest with
      | nil =>
        -- this is the second row
        cases hst
        refine h.update hs ?_ (fun k hke => AList.lookup_insert_ne hke) hkeys hne
        rw [AList.lookup_insert, hk, singleton_append, candidateOf, hp, if_neg Bool.false_ne_true]
        rfl
      | cons e₁ rest =>
        cases hst
        refine h.update hs ?_ (fun _ _ => rfl) hkeys hne
        rw [hcand, hk, cons_append, candidateOf, candidateOf, hp]
        rfl

theorem Seen.init : Seen p pred readSet {} [] where
  candidates k := by
    rw [ofKey]
    split <;> rfl
  active k := by
    rw [ofKey]
    split <;> simp
  newest k e rest h := by
    rw [ofKey] at h
    split at h <;> cases h

theorem Seen.replay {l : List Encounter} (h : Seen p pred readSet st seen)
    (hst : replay p pred readSet l st = .ok st') : Seen p pred readSet st' (seen ++ l) := by
  induction l generalizing st seen with
  | nil =>
    cases hst
    rw [append_nil]
    exact h
  | cons e l ih =>
    rw [Pequin.replay, foldlM_cons] at hst
    cases hc : checkRow p pred readSet e.write.2.1 e.write.2.2 e.row e.key st with
    | error res =>
      rw [hc] at hst
      cases hst
    | ok st₁ =>
      rw [hc] at hst
      rw [append_cons]
      exact ih (h.step hc) hst

theorem mem_activeDeps {t : Transaction} : t ∈ st.activeDeps ↔ ∃ k, st.candidates.lookup k = some (true, t) := by
  rw [PredState.activeDeps, mem_filterMap]
  constructor
  · rintro ⟨⟨k, active, dep⟩, hmem, hdep⟩
    split at hdep
    · rename_i hactive
      rw [Option.some.injEq] at hdep
      exact ⟨k, AList.mem_lookup_iff.mpr (by rw [← hdep, ← hactive]; exact hmem)⟩
    · cases hdep
  · rintro ⟨k, hk⟩
    exact ⟨⟨k, true, t⟩, AList.mem_lookup_iff.mp hk, rfl⟩

end Loop

/-! ## What passes the check -/

section Passed

variable (p) (tables) (ts) (pred) (readSet)

/-- The writes whose rows are checked, from the latest down. -/
def examined : List RecordedWrite :=
  (tables pred.tableName).elim [] fun h => reached p pred.tableVersion (h.below ts)

def examinedRows (k : Bytes) : List (RecordedWrite × RowUpdates) :=
  (examined p tables ts pred).flatMap fun x => (versions pred k x).map fun row => (x, row)

/-- The transaction is prepared, and has the newest row of a key among several that are checked. -/
def Awaited (t : Transaction) : Prop :=
  ∃ k, p.skips readSet k = false ∧ ∃ x row rest, examinedRows p tables ts pred k = (x, row) :: rest ∧
    rest ≠ [] ∧ x.2.2 = false ∧ x.2.1 = t

/-- A row that is not checked: of the first write of the table, of a write behind one beyond both graces, or not the
first of its key. -/
def Overlooked (k : Bytes) (x : RecordedWrite) (row : RowUpdates) : Prop :=
  (∀ y ∈ recorded tables pred, x.1 ≤ y.1) ∨
  (∃ y ∈ recorded tables pred, x.1 < y.1 ∧ y.1 < ts ∧ y.1 ≠ pred.tableVersion ∧ p.beyond pred.tableVersion y.1 = true) ∨
  (versions pred k x).head? ≠ some row

variable {p tables ts pred readSet}

theorem examined_pairwise : (examined p tables ts pred).Pairwise fun a b => b.1 < a.1 := by
  rw [examined]
  cases tables pred.tableName with
  | none => exact List.Pairwise.nil
  | some h => exact (pairwise_below h).sublist reached_sublist

theorem mem_examined : x ∈ examined p tables ts pred ↔
    InWindow p tables ts pred x ∧ (∃ y ∈ recorded tables pred, y.1 < x.1) ∧
      ∀ y ∈ recorded tables pred, x.1 < y.1 → y.1 < ts → y.1 ≠ pred.tableVersion →
        p.beyond pred.tableVersion y.1 = false := by
  rw [examined, recorded]
  cases ht : tables pred.tableName with
  | none =>
    refine ⟨nofun, fun h => ?_⟩
    obtain ⟨y, hy, -⟩ := h.2.1
    cases hy
  | some h =>
    have hrec : ∀ {y}, y ∈ recorded tables pred ↔ y ∈ h.writes := fun {y} => by rw [recorded, ht]; rfl
    rw [Option.elim_some, mem_reached (pairwise_below h), mem_below]
    constructor
    · rintro ⟨⟨hx, hts, y, hy, hlt⟩, htv, hig, hall⟩
      have hx' : x ∈ h.below ts := mem_below.mpr ⟨hx, hts, y, hy, hlt⟩
      refine ⟨⟨hrec.mpr hx, hts, htv, hall x hx' (le_refl _) htv, hig⟩, ⟨y, hy, hlt⟩, fun z hz hlt' hzts => ?_⟩
      exact hall z (mem_below.mpr ⟨hz, hzts, x, hx, hlt'⟩) hlt'.le
    · rintro ⟨hw, ⟨y, hy, hlt⟩, hall⟩
      refine ⟨⟨hrec.mp hw.mem, hw.before, y, hy, hlt⟩, hw.other, hw.counts, fun z hz hle hne => ?_⟩
      obtain ⟨hz, hzts, -⟩ := mem_below.mp hz
      rcases hle.eq_or_lt with heq | hlt'
      · rw [← heq]
        exact hw.recent
      · exact hall z hz hlt' hzts hne

theorem mem_examined_of_not_overlooked {row : RowUpdates}
    (hx : InWindow p tables ts pred x) (h : ¬ Overlooked p tables ts pred k x row) :
    x ∈ examined p tables ts pred ∧ (versions pred k x).head? = some row := by
  rw [Overlooked, not_or, not_or, not_forall, not_not] at h
  obtain ⟨⟨y, hy⟩, hbehind, hhead⟩ := h
  rw [Classical.not_imp, not_le] at hy
  refine ⟨mem_examined.mpr ⟨hx, ⟨y, hy.1, hy.2⟩, fun z hz hlt hts hne => ?_⟩, hhead⟩
  by_contra hbeyond
  rw [Bool.not_eq_false] at hbeyond
  exact hbehind ⟨z, hz, hlt, hts, hne, hbeyond⟩

/-- The first row of a key that is checked is the first one of the newest write that has the key. -/
theorem examinedRows_of_mem {l : List RecordedWrite} (hl : l.Pairwise fun a b => b.1 < a.1)
    (hx : x ∈ l) (hne : versions pred k x ≠ []) :
    ∃ y row rest, (l.flatMap fun x => (versions pred k x).map fun row => (x, row)) = (y, row) :: rest ∧
      y ∈ l ∧ (versions pred k y).head? = some row ∧ (x = y ∨ x.1 < y.1 ∧ rest ≠ []) := by
  induction l with
  | nil => cases hx
  | cons z l ih =>
    rw [pairwise_cons] at hl
    rw [flatMap_cons]
    cases hv : versions pred k z with
    | nil =>
      have hxl : x ∈ l := (mem_cons.mp hx).resolve_left fun heq => hne (heq ▸ hv)
      obtain ⟨y, row, rest, heq, hy, hrest⟩ := ih hl.2 hxl
      exact ⟨y, row, rest, heq, mem_cons_of_mem _ hy, hrest⟩
    | cons row rows =>
      refine ⟨z, row, _, rfl, mem_cons_self, by rw [hv]; rfl, ?_⟩
      rcases mem_cons.mp hx with rfl | hxl
      · exact .inl rfl
      refine .inr ⟨hl.1 x hxl, fun hnil => ?_⟩
      obtain ⟨y, row', rest, heq, -⟩ := ih hl.2 hxl
      have := (append_eq_nil_iff.mp hnil).2
      rw [heq] at this
      cases this

theorem filter_encounters :
    (encounters pred x).filter (fun e => e.key == k) = (versions pred k x).map fun row => ⟨x, row, k⟩ := by
  rw [encounters, versions]
  induction (x.2.1.tableWrites.lookup pred.tableName).getD [] with
  | nil => rfl
  | cons row rows ih =>
    rw [filterMap_cons, filter_cons]
    cases hk : rowKey x.2.1 row with
    | none => simpa using ih
    | some k' =>
      by_cases heq : k' = k
      · simpa [heq] using ih
      · simpa [heq] using ih

theorem ofKey_encounters (hk : p.skips readSet k = false) (l : List RecordedWrite) :
    ofKey p readSet k (l.flatMap (encounters pred)) =
      (l.flatMap fun x => (versions pred k x).map fun row => (x, row)).map fun y => ⟨y.1, y.2, k⟩ := by
  rw [ofKey, hk, if_neg Bool.false_ne_true, filter_flatMap, map_flatMap]
  congr 1
  funext x
  rw [filter_encounters, map_map]
  rfl

theorem checkReadPred_commit {deps deps' : List Transaction}
    (h : checkReadPred p tables ts pred readSet deps = some (.commit, deps')) :
    (∀ k, p.skips readSet k = false → ∀ x row rest, examinedRows p tables ts pred k = (x, row) :: rest →
      p.satisfies pred row = false) ∧ ∀ t, t ∈ deps' ↔ t ∈ deps ∨ Awaited p tables ts pred readSet t := by
  have hnone : ∀ {t : Transaction}, (∀ k, examinedRows p tables ts pred k = []) →
      ¬ Awaited p tables ts pred readSet t := by
    rintro t hnil ⟨k, -, x, row, rest, heq, -⟩
    rw [hnil k] at heq
    cases heq
  rw [checkReadPred] at h
  split at h
  · cases h
  split at h
  · -- no such table
    rename_i ht
    cases h
    have hnil : ∀ k, examinedRows p tables ts pred k = [] := fun k => by rw [examinedRows, examined, ht]; rfl
    refine ⟨fun k _ x row rest heq => ?_, fun t => ⟨.inl, fun hor => hor.resolve_right (hnone hnil)⟩⟩
    rw [hnil k] at heq
    cases heq
  · rename_i hist ht
    split at h
    · cases h
    · rename_i res hres
      cases h
      cases replay_error (replay_of_checkWrites hres)
    · rename_i st hst
      cases h
      have hseen : Seen p pred readSet st ((examined p tables ts pred).flatMap (encounters pred)) := by
        rw [examined, ht]
        exact Seen.init.replay (replay_of_checkWrites hst)
      have hrows : ∀ k, p.skips readSet k = false →
          ofKey p readSet k ((examined p tables ts pred).flatMap (encounters pred)) =
            (examinedRows p tables ts pred k).map fun y => ⟨y.1, y.2, k⟩ := fun k hk => ofKey_encounters hk _
      refine ⟨fun k hk x row rest heq => ?_, fun t => ?_⟩
      · exact hseen.newest k ⟨x, row, k⟩ _ (by rw [hrows k hk, heq]; rfl)
      rw [mem_append, mem_activeDeps]
      refine or_congr_right ⟨fun ⟨k, hl⟩ => ?_, fun ⟨k, hk, x, row, rest, heq, hne, hp, ht⟩ => ⟨k, ?_⟩⟩
      · -- an active candidate is the newest of several rows
        rw [hseen.candidates k] at hl
        cases ho : ofKey p readSet k ((examined p tables ts pred).flatMap (encounters pred)) with
        | nil =>
          rw [ho] at hl
          cases hl
        | cons e rest =>
          have hk := skips_of_ofKey ho
          rw [hrows k hk] at ho
          obtain ⟨y, rest', heq, rfl, rfl⟩ := map_eq_cons_iff.mp ho
          rw [hrows k hk, heq, map_cons, candidateOf] at hl
          split at hl
          · cases hl
          rename_i hp
          rw [Option.some.injEq, Prod.mk.injEq] at hl
          refine ⟨k, hk, y.1, y.2, rest', heq, fun hnil => ?_, by simpa using hp, hl.2⟩
          rw [hnil] at hl
          cases hl.1
      · rw [hseen.candidates k, hrows k hk, heq, map_cons, candidateOf]
        rw [hp, if_neg Bool.false_ne_true, ht]
        cases rest with
        | nil => exact absurd rfl hne
        | cons y rest => rfl

/-- If the check passes, the reader is safe iff the rows overlooked that satisfy the predicate are superseded. -/
theorem phantomSafe_iff {deps deps' : List Transaction}
    (h : checkReadPred p tables ts pred readSet deps = some (.commit, deps')) :
    PhantomSafe p tables ts pred readSet deps' ↔
      ∀ k, p.skips readSet k = false → ∀ x, InWindow p tables ts pred x → ∀ row ∈ versions pred k x,
        Overlooked p tables ts pred k x row → p.satisfies pred row = true →
        Superseded p tables ts pred (fun t => t ∈ deps ∨ Awaited p tables ts pred readSet t) k x := by
  obtain ⟨hnewest, hdeps⟩ := checkReadPred_commit h
  have hsup : ∀ k x, Superseded p tables ts pred (· ∈ deps') k x ↔
      Superseded p tables ts pred (fun t => t ∈ deps ∨ Awaited p tables ts pred readSet t) k x := fun k x => by
    simp only [Superseded, hdeps]
  rw [phantomSafe_iff_superseded]
  refine ⟨fun hall k hk x hx row hrow _ hsat => (hsup k x).mp (hall k hk x hx row hrow hsat),
    fun hall k hk x hx row hrow hsat => ?_⟩
  rw [hsup]
  by_cases hover : Overlooked p tables ts pred k x row
  · exact hall k hk x hx row hrow hover hsat
  -- the newest row that is checked supersedes the others
  obtain ⟨hex, hhead⟩ := mem_examined_of_not_overlooked hx hover
  obtain ⟨y, row', rest, heq, hy, hhead', hor⟩ :=
    examinedRows_of_mem examined_pairwise hex (ne_nil_of_mem hrow)
  have hsat' := hnewest k hk y row' rest heq
  rcases hor with rfl | ⟨hlt, hne⟩
  · rw [hhead, Option.some.injEq] at hhead'
    rw [hhead', hsat'] at hsat
    cases hsat
  · refine ⟨y, (mem_examined.mp hy).1, hlt, ⟨row', mem_of_mem_head? hhead', hsat'⟩, ?_⟩
    cases hp : y.2.2 with
    | true => exact .inl rfl
    | false => exact .inr (.inr ⟨k, hk, y, row', rest, heq, hne, hp, rfl⟩)

end Passed

/-! ## A table with one write -/

def scanParams : SemanticParams where
  isKeyOwned _ := true
  evalPred _ _ _ := true
  monotonicityGrace := 10
  nonMonotonicityGrace := 10
  nonMonotonic _ := false

def scanPred : ReadPredicate := ⟨[1], .genesis, [[1]]⟩

def rowInserter : Transaction where
  clientId := 2
  clientSeqNum := 1
  involvedGroups := [0]
  readSet := []
  writeSet := [⟨[7], some [1], false⟩]
  timestamp := ⟨20000, 2⟩
  tableWrites := [([1], [⟨[[7]], false, 0⟩])]

def rowDeleter : Transaction where
  clientId := 3
  clientSeqNum := 1
  involvedGroups := [0]
  readSet := []
  writeSet := [⟨[7], some deletionMark, false⟩]
  timestamp := ⟨25000, 3⟩
  tableWrites := [([1], [⟨[[7]], true, 0⟩])]

def tableAfter (txns : List Transaction) : TableWrites :=
  (txns.foldlM (fun tables t => TableWrites.recordWrites tables t true)
    (TableWrites.createTable (fun _ => none) [1])).getD fun _ => none

theorem phantomSafe_iff_twoWrites :
    checkReadPred scanParams (tableAfter [rowInserter, rowDeleter]) ⟨30000, 1⟩ scanPred [] [] = some (.commit, []) ∧
    PhantomSafe scanParams (tableAfter [rowInserter, rowDeleter]) ⟨30000, 1⟩ scanPred [] [] := by
  have hpass : checkReadPred scanParams (tableAfter [rowInserter, rowDeleter]) ⟨30000, 1⟩ scanPred [] [] =
      some (.commit, []) := by decide +kernel
  have hrec : recorded (tableAfter [rowInserter, rowDeleter]) scanPred =
      [(⟨20000, 2⟩, rowInserter, true), (⟨25000, 3⟩, rowDeleter, true)] := by decide +kernel
  have hdel : InWindow scanParams (tableAfter [rowInserter, rowDeleter]) ⟨30000, 1⟩ scanPred
      (⟨25000, 3⟩, rowDeleter, true) :=
    ⟨by rw [hrec]; simp, by decide, by decide, by decide, by decide⟩
  refine ⟨hpass, (phantomSafe_iff hpass).mpr fun k _ x hx row hrow _ hsat => ?_⟩
  have hmem := hx.mem
  rw [hrec, mem_cons, mem_singleton] at hmem
  rw [versions, mem_filter, beq_iff_eq] at hrow
  rcases hmem with rfl | rfl
  · -- the insertion is superseded by the deletion
    obtain rfl : row = ⟨[[7]], false, 0⟩ := mem_singleton.mp hrow.1
    obtain rfl : [7] = k := Option.some.inj hrow.2
    exact ⟨_, hdel, by decide, ⟨⟨[[7]], true, 0⟩, by decide, by decide⟩, .inl rfl⟩
  · obtain rfl : row = ⟨[[7]], true, 0⟩ := mem_singleton.mp hrow.1
    cases hsat

theorem phantom_first_write :
    checkReadPred scanParams (tableAfter [rowInserter]) ⟨30000, 1⟩ scanPred [] [] = some (.commit, []) ∧
    ¬ PhantomSafe scanParams (tableAfter [rowInserter]) ⟨30000, 1⟩ scanPred [] [] := by
  refine ⟨by decide +kernel, fun hsafe => ?_⟩
  have hrec : recorded (tableAfter [rowInserter]) scanPred = [(⟨20000, 2⟩, rowInserter, true)] := by
    decide +kernel
  have hin : InWindow scanParams (tableAfter [rowInserter]) ⟨30000, 1⟩ scanPred
      (⟨20000, 2⟩, rowInserter, true) :=
    ⟨by rw [hrec]; simp, by decide, by decide, by decide, by decide⟩
  have hfalse := hsafe.newest [7] rfl _ hin ⟨[[7]], false, 0⟩ (by decide) fun y hy _ => by
    have hmem := hy.mem
    rw [hrec, mem_singleton] at hmem
    rw [hmem]
  cases hfalse

end Pequin
