import Mathlib.Data.Set.Insert
import Pequin.Framework.Run
import Pequin.Model.TableStore

/-!
# Convergence of the table store

The writes of a transaction touch the versions of its own timestamp only. What a committed transaction leaves there
depends on its table writes alone, with one exception: a deletion that finds no version at or below its timestamp
leaves nothing.
-/

namespace Pequin

open Chain Function IndexScan List Option Run Table TableTxn

variable {x : TableTxn} {table table' : Table} {k : Bytes}

def versionsAt (t : Timestamp) (chain : List RowVersion) : List RowVersion := group RowVersion.timestamp t chain

theorem versionsAt_cons_self {t : Timestamp} {v : RowVersion} {chain : List RowVersion} (h : v.timestamp = t) :
    versionsAt t (v :: chain) = v :: versionsAt t chain :=
  group_cons_self h

theorem versionsAt_cons_of_ne {t : Timestamp} {v : RowVersion} {chain : List RowVersion} (h : v.timestamp ≠ t) :
    versionsAt t (v :: chain) = versionsAt t chain :=
  group_cons_of_ne h

theorem versionsAt_append (t : Timestamp) (chain chain' : List RowVersion) :
    versionsAt t (chain ++ chain') = versionsAt t chain ++ versionsAt t chain' :=
  group_append t chain chain'

def RowVersion.live (v : RowVersion) : Bool := v.commitOrPrepare && !v.purged

def RowVersion.content (v : RowVersion) : Timestamp × Option (List Bytes) :=
  (v.timestamp, if v.isDeleted then none else some v.values)

open RowVersion (content live)

/-! ## Single writes -/

namespace WriteTxn

variable {w : WriteTxn} {values : List Bytes} {v v' : RowVersion} {chain chain' g g' : List RowVersion} {isHead : Bool}

@[simp] theorem timestamp_version (isDeleted : Bool) : (w.version isDeleted values).timestamp = w.timestamp := by
  unfold version
  split <;> rfl

/-- A write leaves the versions of other timestamps alone. -/
structure Touches (w : WriteTxn) (chain chain' : List RowVersion) : Prop where
  descending : Descending RowVersion.timestamp chain'
  others (t : Timestamp) (ht : t ≠ w.timestamp) : versionsAt t chain' = versionsAt t chain

theorem Touches.refl (h : Descending RowVersion.timestamp chain) : w.Touches chain chain := ⟨h, fun _ _ => rfl⟩

theorem Touches.trans {chain'' : List RowVersion} (h : w.Touches chain chain') (h' : w.Touches chain' chain'') :
    w.Touches chain chain'' :=
  ⟨h'.descending, fun t ht => (h'.others t ht).trans (h.others t ht)⟩

theorem touches_performUpdate (h : Descending RowVersion.timestamp chain) (hv : v.timestamp = w.timestamp) :
    w.Touches chain (w.performUpdate v chain) :=
  ⟨h.link _ _, fun _ ht => group_link_of_ne (hv.trans_ne ht.symm)⟩

/-- What `InsertTuple` does to the versions of its own timestamp. -/
def Updates (w : WriteTxn) (values : List Bytes) (g g' : List RowVersion) : Prop :=
  match g with
  | [] => g' = [w.version false values]
  | v :: rest =>
    if w.undoDelete && !v.commitOrPrepare then g' = rest ∨ rest = [] ∧ g' = [{ v with purged := true }]
    else ∃ v', w.upgradeRowVersionCommitStatus values v = some v' ∧ g' = v' :: rest

theorem upgrade_spec (h : w.upgradeRowVersionCommitStatus values v = some v') :
    v'.timestamp = v.timestamp ∧ v'.purged = v.purged ∧ v'.isDeleted = v.isDeleted ∧ v'.values = v.values ∧
      (w.commitOrPrepare = true → w.forceMaterialize = false → v'.commitOrPrepare = true) ∧
      (w.commitOrPrepare = false → v.commitOrPrepare = false → v'.commitOrPrepare = false) := by
  unfold upgradeRowVersionCommitStatus at h
  split at h
  · cases h
    refine ⟨?_, ?_, ?_, ?_, ?_, ?_⟩
    · split_ifs <;> rfl
    · split_ifs <;> rfl
    · split_ifs <;> rfl
    · split_ifs <;> rfl
    · intro hc hf
      cases hv : v.commitOrPrepare <;> cases hm : v.materialize <;> simp [hc, hf, hv, hm]
    · intro hc hv
      split_ifs <;> simp_all
  · cases h

theorem Touches.replace (pre : List RowVersion) {post : List RowVersion}
    (h : Descending RowVersion.timestamp (pre ++ v :: post)) (hv : v.timestamp = w.timestamp)
    (hv' : v'.timestamp = w.timestamp) : w.Touches (pre ++ v :: post) (pre ++ v' :: post) := by
  refine ⟨h.of_sublist ?_, fun t ht => ?_⟩
  · simp [hv, hv']
  · have hskip {u : RowVersion} (hu : u.timestamp = w.timestamp) : versionsAt t (u :: post) = versionsAt t post :=
      versionsAt_cons_of_ne (hu.trans_ne ht.symm)
    rw [versionsAt_append, versionsAt_append, hskip hv, hskip hv']

theorem checkRowVersionUpdate_append {pre : List RowVersion} (hpre : ∀ u ∈ pre, w.timestamp < u.timestamp)
    (rest : List RowVersion) : w.checkRowVersionUpdate values isHead (pre ++ rest) =
      (w.checkRowVersionUpdate values (isHead && pre.isEmpty) rest).map (Option.map (pre ++ ·)) := by
  induction pre generalizing isHead with
  | nil => simp
  | cons u pre ih =>
    rw [cons_append, checkRowVersionUpdate, if_pos (hpre u mem_cons_self),
      ih fun u' hu' => hpre u' (mem_cons_of_mem u hu')]
    simp [comp_def]

/-- An insert links a new version, or updates the first one that is not newer where it is. -/
theorem insertTuple_cases (w : WriteTxn) (values : List Bytes) (chain : List RowVersion) :
    (∀ v ∈ latest RowVersion.timestamp (fun _ => true) w.timestamp chain, v.timestamp ≠ w.timestamp) ∧
        w.insertTuple values chain = some (w.performUpdate (w.version false values) chain) ∨
      ∃ pre v post, chain = pre ++ v :: post ∧ (∀ u ∈ pre, w.timestamp < u.timestamp) ∧ v.timestamp = w.timestamp ∧
        w.insertTuple values chain = if w.undoDelete && !v.commitOrPrepare then
          some (pre ++ if pre.isEmpty && post.isEmpty then [{ v with purged := true }] else post)
        else (w.upgradeRowVersionCommitStatus values v).map (pre ++ · :: post) := by
  have heq : w.insertTuple values chain =
      (w.checkRowVersionUpdate values true chain).map (·.getD (w.performUpdate (w.version false values) chain)) := by
    cases chain with
    | nil => rfl
    | cons v chain =>
      rw [insertTuple]
      rcases w.checkRowVersionUpdate values true (v :: chain) with _ | _ | c <;> rfl
  rw [heq]
  cases hfind : latest RowVersion.timestamp (fun _ => true) w.timestamp chain with
  | none =>
    have hpre : ∀ u ∈ chain, w.timestamp < u.timestamp := by simpa [latest] using hfind
    have hcheck : w.checkRowVersionUpdate values true (chain ++ []) = _ := checkRowVersionUpdate_append hpre []
    rw [append_nil] at hcheck
    rw [hcheck]
    exact .inl ⟨fun v hv => (by cases hv), rfl⟩
  | some v =>
    obtain ⟨hv, pre, post, rfl, hpre⟩ := List.find?_eq_some_iff_append.mp hfind
    have hpre' : ∀ u ∈ pre, w.timestamp < u.timestamp := by simpa using hpre
    have hle : ¬w.timestamp < v.timestamp := by simpa using hv
    rw [checkRowVersionUpdate_append hpre', checkRowVersionUpdate, if_neg hle]
    split
    · rename_i htime
      refine .inr ⟨pre, v, post, rfl, hpre', htime, ?_⟩
      split <;> simp [comp_def]
    · rename_i htime
      exact .inl ⟨fun u hu => some.inj hu ▸ htime, rfl⟩

theorem versionsAt_performUpdate (h : Descending RowVersion.timestamp chain) (hv : v.timestamp = w.timestamp) :
    versionsAt w.timestamp (w.performUpdate v chain) =
      if versionsAt w.timestamp chain = [] ∨ w.commitOrPrepare = true then v :: versionsAt w.timestamp chain
      else versionsAt w.timestamp chain := by
  rw [← hv]
  exact h.group_link_self

theorem insertTuple_spec (hdesc : Descending RowVersion.timestamp chain)
    (h : w.insertTuple values chain = some chain') :
    w.Touches chain chain' ∧ w.Updates values (versionsAt w.timestamp chain) (versionsAt w.timestamp chain') := by
  obtain ⟨hnone, heq⟩ | ⟨pre, v, post, rfl, hpre, htime, heq⟩ := insertTuple_cases w values chain
  · obtain rfl := some.inj (heq.symm.trans h)
    have hnil : versionsAt w.timestamp chain = [] := by
      refine eq_nil_iff_forall_not_mem.mpr fun u hu => ?_
      obtain ⟨hmem, hut⟩ := mem_group.mp hu
      cases hl : latest RowVersion.timestamp (fun _ => true) w.timestamp chain with
      | none => simpa [hut] using List.find?_eq_none.mp hl u hmem
      | some v =>
        obtain ⟨-, hle, -, hmax⟩ := hdesc.latest_spec hl
        exact hnone v hl (le_antisymm hle (hut ▸ hmax u hmem rfl hut.le))
    refine ⟨touches_performUpdate hdesc (timestamp_version false), ?_⟩
    rw [versionsAt_performUpdate hdesc (timestamp_version false), if_pos (.inl hnil), hnil]
    rfl
  have hskip (c : List RowVersion) : versionsAt w.timestamp (pre ++ c) = versionsAt w.timestamp c := by
    have hnil : versionsAt w.timestamp pre = [] := filter_eq_nil_iff.mpr fun u hu => by simpa using (hpre u hu).ne'
    rw [versionsAt_append, hnil, nil_append]
  rw [hskip, versionsAt_cons_self htime, Updates]
  rw [h] at heq
  split at heq
  · rename_i hundo
    obtain rfl := some.inj heq
    split
    · -- the only version
      rename_i honly
      obtain ⟨hpre', hpost⟩ := Bool.and_eq_true_iff.mp honly
      obtain rfl := isEmpty_iff.mp hpre'
      obtain rfl := isEmpty_iff.mp hpost
      have htouch : w.Touches [v] [{ v with purged := true }] := .replace [] hdesc htime htime
      exact ⟨htouch, .inr ⟨rfl, versionsAt_cons_self (v := { v with purged := true }) htime⟩⟩
    · refine ⟨⟨hdesc.of_sublist (by simp), fun t ht => ?_⟩, .inl (hskip post)⟩
      rw [versionsAt_append, versionsAt_append, versionsAt_cons_of_ne (htime.trans_ne ht.symm)]
  · rename_i hundo
    rw [if_neg hundo]
    obtain ⟨v', hv', rfl⟩ := map_eq_some_iff.mp heq.symm
    have htime' := (upgrade_spec hv').1.trans htime
    exact ⟨.replace pre hdesc htime htime', v', hv', (hskip _).trans (versionsAt_cons_self htime')⟩

/-! A deletion takes the first version that is not purged and not newer. -/

@[simp] theorem isPointRead_scan : w.scan.isPointRead = false := rfl

@[simp] theorem snapshotRead_scan : w.scan.snapshotRead = false := rfl

@[simp] theorem snapshotOnlyMode_scan : w.scan.snapshotOnlyMode = false := rfl

/-- A version that the scan of a deletion stops at. -/
def finds (w : WriteTxn) (v : RowVersion) : Bool := !v.purged && decide (v.timestamp ≤ w.timestamp)

def upgrades (w : WriteTxn) (v : RowVersion) : Bool :=
  !v.commitOrPrepare && v.isDeleted && decide (v.timestamp = w.timestamp) && w.commitOrPrepare

theorem findRightRowVersion_scan (v : RowVersion) : (findRightRowVersion w.scan v {}).done = true ∧
    (findRightRowVersion w.scan v {}).upgraded = w.upgrades v ∧
    (findRightRowVersion w.scan v {}).readCurrVersion = !w.upgrades v ∧
    (findRightRowVersion w.scan v {}).walk.numReads = 0 ∧ (findRightRowVersion w.scan v {}).walk.evaluated = [] := by
  cases hv : v.commitOrPrepare with
  | true =>
    simp [findRightRowVersion, readVersion, scan, ScanTxn.performRead, ScanTxn.writeMode,
      ScanTxn.snapshotRead, Visit.readOnSnapshot, Visit.findSnapshot, upgrades, hv]
  | false =>
    cases hdel : v.isDeleted <;> cases hcommit : w.commitOrPrepare <;> by_cases htime : v.timestamp = w.timestamp <;>
      simp [findRightRowVersion, readVersion, scan, ScanTxn.performRead, ScanTxn.writeMode,
        ScanTxn.snapshotRead, upgrades, hv, hdel, hcommit, htime]

/-- The scan of a deletion ends at the first version: it commits that one where it is, or reads it. -/
theorem checkRow_scan {r : Walk × List RowVersion} (hr : IndexScan.checkRow w.scan chain {} = r) :
    (∀ v ∈ chain, w.finds v = false) ∧ r.1.evaluated = [] ∧ r.2 = chain ∨
      (∃ pre v post, chain = pre ++ v :: post ∧ (∀ u ∈ pre, w.finds u = false) ∧ w.finds v = true ∧
        w.upgrades v = true ∧ r.1.evaluated = [] ∧
        r.2 = pre ++ { v with commitOrPrepare := true, materialize := false } :: post) ∨
      r.1.evaluated ≠ [] ∧ r.2 = chain := by
  induction chain generalizing r with
  | nil =>
    obtain rfl := hr
    exact .inl ⟨forall_mem_nil _, rfl, rfl⟩
  | cons v chain ih =>
    obtain rfl := hr
    have hguard : (!v.purged && decide (v.timestamp ≤ w.scan.timestamp)) = w.finds v := rfl
    rw [IndexScan.checkRow, hguard]
    cases hv : w.finds v with
    | true =>
      obtain ⟨hdone, hup, hread, hnum, heval⟩ := findRightRowVersion_scan (w := w) v
      cases h : w.upgrades v with
      | true =>
        refine .inr (.inl ⟨[], v, chain, rfl, forall_mem_nil _, hv, h, ?_, ?_⟩) <;>
          simp [hdone, hup, hread, heval, h, Walk.evalRead, Walk.skip]
      | false => right; right; simp [hdone, hup, hread, hnum, heval, h, Walk.evalRead, Walk.skip]
    | false =>
      obtain ⟨hnone, heval, hchain⟩ | ⟨pre, u, post, rfl, hpre, hu, hup, heval, hchain⟩ | ⟨heval, hchain⟩ := ih rfl
      · exact .inl ⟨forall_mem_cons.mpr ⟨hv, hnone⟩, heval, congrArg _ hchain⟩
      · exact .inr (.inl ⟨v :: pre, u, post, rfl, forall_mem_cons.mpr ⟨hv, hpre⟩, hu, hup, heval, congrArg _ hchain⟩)
      · exact .inr (.inr ⟨heval, congrArg _ hchain⟩)

/-- A deletion leaves the chain alone, commits its own prepared version, or links a new one. -/
theorem deleteRow_cases (w : WriteTxn) (chain : List RowVersion) :
    (∀ v ∈ chain, w.finds v = false) ∧ w.deleteRow chain = chain ∨
      (∃ pre v post, chain = pre ++ v :: post ∧ (∀ u ∈ pre, w.finds u = false) ∧ w.finds v = true ∧
        w.upgrades v = true ∧
        w.deleteRow chain = pre ++ { v with commitOrPrepare := true, materialize := false } :: post) ∨
      w.deleteRow chain = w.performUpdate (w.version true []) chain := by
  rw [deleteRow]
  obtain ⟨hnone, heval, hchain⟩ | ⟨pre, v, post, hpost, hpre, hv, hup, heval, hchain⟩ | ⟨heval, hchain⟩ :=
    checkRow_scan (rfl : IndexScan.checkRow w.scan chain {} = _)
  · rw [heval]
    exact .inl ⟨hnone, hchain⟩
  · rw [heval]
    exact .inr (.inl ⟨pre, v, post, hpost, hpre, hv, hup, hchain⟩)
  · rw [if_neg (by simpa using heval), hchain]
    exact .inr (.inr rfl)

theorem upgrades_iff :
    w.upgrades v = true ↔ v.commitOrPrepare = false ∧ v.isDeleted = true ∧ v.timestamp = w.timestamp ∧
      w.commitOrPrepare = true := by
  simp [upgrades, and_assoc]

def Deleted (w : WriteTxn) (chain : List RowVersion) : Prop :=
  ∃ v, (versionsAt w.timestamp chain).find? live = some v ∧ v.isDeleted = true

theorem Deleted.finds (h : w.Deleted chain) : ∃ v ∈ chain, w.finds v = true := by
  obtain ⟨v, hv, -⟩ := h
  obtain ⟨hmem, htime⟩ := mem_group.mp (mem_of_find?_eq_some hv)
  have hlive := List.find?_some hv
  rw [live, Bool.and_eq_true] at hlive
  exact ⟨v, hmem, by simp [WriteTxn.finds, htime, hlive.2]⟩

section

variable (h : Descending RowVersion.timestamp chain)
include h

theorem touches_deleteRow : w.Touches chain (w.deleteRow chain) := by
  obtain ⟨-, heq⟩ | ⟨pre, v, post, rfl, -, -, hup, heq⟩ | heq := deleteRow_cases w chain
  · rw [heq]
    exact .refl h
  · rw [heq]
    have htime := (upgrades_iff.mp hup).2.2.1
    exact .replace pre h htime htime
  · rw [heq]
    exact touches_performUpdate h (timestamp_version true)

theorem deleted_deleteRow (hcommit : w.commitOrPrepare = true)
    (hundo : w.undoDelete = false) (hfinds : ∃ v ∈ chain, w.finds v = true) : w.Deleted (w.deleteRow chain) := by
  obtain ⟨hnone, -⟩ | ⟨pre, v, post, rfl, hpre, hv, hup, heq⟩ | heq := deleteRow_cases w chain
  · obtain ⟨v, hmem, hv⟩ := hfinds
    rw [hnone v hmem] at hv
    cases hv
  · rw [heq]
    obtain ⟨-, hdel, htime, -⟩ := upgrades_iff.mp hup
    refine ⟨{ v with commitOrPrepare := true, materialize := false }, ?_, hdel⟩
    -- what comes before it and has the same timestamp is purged
    have hskip : (versionsAt w.timestamp pre).find? live = none := by
      refine List.find?_eq_none.mpr fun u hu => ?_
      obtain ⟨hmem, hut⟩ := mem_group.mp hu
      have hpurged : u.purged = true := by simpa [WriteTxn.finds, hut] using hpre u hmem
      simp [live, hpurged]
    have hlive : v.purged = false := by
      have := (Bool.and_eq_true_iff.mp hv).1
      simpa using this
    rw [versionsAt_append, List.find?_append, hskip,
      versionsAt_cons_self (v := { v with commitOrPrepare := true, materialize := false }) htime, List.find?_cons]
    simp [live, hlive]
  · rw [heq]
    refine ⟨w.version true [], ?_, ?_⟩
    · rw [versionsAt_performUpdate h (timestamp_version true), if_pos (.inr hcommit), List.find?_cons]
      simp [live, version, hundo, hcommit]
    · simp [version, hundo]

theorem versionsAt_deleteRow (hprepare : w.commitOrPrepare = false) :
    versionsAt w.timestamp (w.deleteRow chain) = versionsAt w.timestamp chain ∨
      versionsAt w.timestamp chain = [] ∧ versionsAt w.timestamp (w.deleteRow chain) = [w.version true []] := by
  obtain ⟨-, heq⟩ | ⟨_, _, _, -, -, -, hup, -⟩ | heq := deleteRow_cases w chain
  · rw [heq]
    exact .inl rfl
  · have hcommit := (upgrades_iff.mp hup).2.2.2
    rw [hprepare] at hcommit
    cases hcommit
  · rw [heq, versionsAt_performUpdate h (timestamp_version true), hprepare]
    by_cases hnil : versionsAt w.timestamp chain = []
    · rw [if_pos (.inl hnil), hnil]
      exact .inr ⟨rfl, rfl⟩
    · rw [if_neg (by simpa using hnil)]
      exact .inl rfl

end

/-! ## The writes to one row -/

def Inserted (w : WriteTxn) (first : List Bytes) (chain : List RowVersion) : Prop :=
  ∃ v, versionsAt w.timestamp chain = [v] ∧ v.commitOrPrepare = w.commitOrPrepare ∧ v.purged = false ∧
    v.content = (w.timestamp, some first)

def Prepared (w : WriteTxn) (columns : Option (List Bytes)) (chain : List RowVersion) : Prop :=
  versionsAt w.timestamp chain = [] ∨
    ∃ v, versionsAt w.timestamp chain = [v] ∧ v.commitOrPrepare = false ∧ v.purged = false ∧
      v.content = (w.timestamp, columns)

section

variable {first : List Bytes} (hundo : w.undoDelete = false) (hdesc : Descending RowVersion.timestamp chain)
  (hforce : w.commitOrPrepare = true → w.forceMaterialize = false)

include hundo hdesc

theorem inserted_of_nil (hnil : versionsAt w.timestamp chain = [])
    (h : w.insertTuple first chain = some chain') : w.Inserted first chain' := by
  have hupd := (insertTuple_spec hdesc h).2
  rw [hnil] at hupd
  exact ⟨w.version false first, hupd, by simp [version, hundo], by simp [version, hundo],
    by simp [version, hundo, content]⟩

include hforce

theorem inserted_of_single (hsingle : versionsAt w.timestamp chain = [v])
    (hstatus : w.commitOrPrepare = false → v.commitOrPrepare = false)
    (hpurged : v.purged = false) (hcontent : v.content = (w.timestamp, some first))
    (h : w.insertTuple values chain = some chain') : w.Inserted first chain' := by
  have hupd := (insertTuple_spec hdesc h).2
  rw [hsingle, Updates, hundo, Bool.false_and, if_neg Bool.false_ne_true] at hupd
  obtain ⟨v', hup, hsingle'⟩ := hupd
  obtain ⟨htime, hp, hdel, hvals, hcommit, hprepare⟩ := upgrade_spec hup
  refine ⟨v', hsingle', ?_, hp.trans hpurged, ?_⟩
  · cases hc : w.commitOrPrepare with
    | true => exact hcommit hc (hforce hc)
    | false => exact hprepare hc (hstatus hc)
  · rw [← hcontent, content, content, htime, hdel, hvals]

theorem inserted_of_exec {rest : List (List Bytes)} (hprep : w.Prepared (some first) chain)
    (h : exec (fun c values => w.insertTuple values c) chain (first :: rest) = some chain') :
    w.Touches chain chain' ∧ w.Inserted first chain' := by
  obtain ⟨c, hfirst, hrest⟩ := exec_cons h
  have htouch := (insertTuple_spec hdesc hfirst).1
  have hins : w.Inserted first c := by
    rcases hprep with hnil | ⟨v, hsingle, hstatus, hpurged, hcontent⟩
    · exact inserted_of_nil hundo hdesc hnil hfirst
    · exact inserted_of_single hundo hdesc hforce hsingle (fun _ => hstatus) hpurged hcontent hfirst
  refine exec_invariant (P := fun c => w.Touches chain c ∧ w.Inserted first c) ?_ ⟨htouch, hins⟩ hrest
  rintro c values c' ⟨htouch, v, hsingle, hstatus, hpurged, hcontent⟩ hstep
  exact ⟨htouch.trans (insertTuple_spec htouch.descending hstep).1,
    inserted_of_single hundo htouch.descending hforce hsingle (fun hc => hstatus.trans hc) hpurged hcontent hstep⟩

end

def deletions (w : WriteTxn) (keys : List Bytes) (chain : List RowVersion) : List RowVersion :=
  keys.foldl (fun c _ => w.deleteRow c) chain

variable {keys : List Bytes}

section

variable (h : Descending RowVersion.timestamp chain)
include h

theorem touches_deletions : w.Touches chain (w.deletions keys chain) :=
  foldlRecOn keys _ (.refl h) fun _ hc _ _ => hc.trans (touches_deleteRow hc.descending)

theorem deleted_deletions (hcommit : w.commitOrPrepare = true)
    (hundo : w.undoDelete = false) (hfinds : ∃ v ∈ chain, w.finds v = true) (hkeys : keys ≠ []) :
    w.Deleted (w.deletions keys chain) := by
  induction keys generalizing chain with
  | nil => exact absurd rfl hkeys
  | cons k keys ih =>
    have hdel := deleted_deleteRow h hcommit hundo hfinds
    cases keys with
    | nil => exact hdel
    | cons k' keys => exact ih (touches_deleteRow h).descending hdel.finds (cons_ne_nil _ _)

theorem versionsAt_deletions (keys : List Bytes) (hprepare : w.commitOrPrepare = false) :
    versionsAt w.timestamp (w.deletions keys chain) = versionsAt w.timestamp chain ∨
      versionsAt w.timestamp chain = [] ∧ versionsAt w.timestamp (w.deletions keys chain) = [w.version true []] := by
  refine (foldlRecOn (motive := fun c => w.Touches chain c ∧ (versionsAt w.timestamp c = versionsAt w.timestamp chain ∨
    versionsAt w.timestamp chain = [] ∧ versionsAt w.timestamp c = [w.version true []])) keys _ ⟨.refl h, .inl rfl⟩
    fun c hc _ _ => ⟨hc.1.trans (touches_deleteRow hc.1.descending), ?_⟩).2
  rcases versionsAt_deleteRow hc.1.descending hprepare with heq | ⟨hnil, hnew⟩
  · rw [heq]
    exact hc.2
  · exact .inr ⟨hc.2.elim (·.symm.trans hnil) And.left, hnew⟩

theorem prepared_deletions (hprepare : w.commitOrPrepare = false)
    (hundo : w.undoDelete = false) (hprep : w.Prepared none chain) : w.Prepared none (w.deletions keys chain) := by
  rcases versionsAt_deletions h keys hprepare with heq | ⟨-, hnew⟩
  · rwa [Prepared, heq]
  · exact .inr ⟨_, hnew, by simp [version, hundo, hprepare], by simp [version, hundo],
      by simp [version, hundo, content]⟩

end

theorem uncommitted_of_exec {rows : List (List Bytes)} (hundo : w.undoDelete = true)
    (hdesc : Descending RowVersion.timestamp chain)
    (hold : ∀ v ∈ versionsAt w.timestamp chain, v.commitOrPrepare = false)
    (h : exec (fun c values => w.insertTuple values c) chain rows = some chain') :
    w.Touches chain chain' ∧ ∀ v ∈ versionsAt w.timestamp chain', v.commitOrPrepare = false := by
  refine exec_invariant
    (P := fun c => w.Touches chain c ∧ ∀ v ∈ versionsAt w.timestamp c, v.commitOrPrepare = false) ?_
    ⟨.refl hdesc, hold⟩ h
  rintro c values c' ⟨htouch, hold⟩ hstep
  obtain ⟨htouch', hupd⟩ := insertTuple_spec htouch.descending hstep
  refine ⟨htouch.trans htouch', ?_⟩
  cases hg : versionsAt w.timestamp c with
  | nil =>
    rw [hg] at hupd
    rw [show versionsAt w.timestamp c' = _ from hupd]
    simp [version, hundo]
  | cons v rest =>
    rw [hg] at hupd hold
    have hv := hold v mem_cons_self
    rw [Updates, if_pos (by simp [hundo, hv])] at hupd
    rcases hupd with heq | ⟨-, heq⟩
    · rw [heq]
      exact fun u hu => hold u (mem_cons_of_mem v hu)
    · rw [heq]
      simpa using hv

end WriteTxn

/-! ## The writes of a transaction -/

namespace TableTxn

variable {mode : ApplyMode}

/-- The columns that the transaction inserts for a row, in order. -/
def inserts (x : TableTxn) (k : Bytes) : List (List Bytes) := (x.insertedRows.filter fun r => r.1 = k).map (·.2)

/-- What the transaction leaves for a row once it is committed: the row, or that it is deleted. -/
def outcome (x : TableTxn) (k : Bytes) : Option (Option (List Bytes)) :=
  if k ∈ x.deletedRows then some none else (x.inserts k).head?.map some

theorem exec_insertRow {w : WriteTxn} {rows : List (Bytes × List Bytes)}
    (h : exec (insertRow w) table rows = some table') :
    exec (fun c values => w.insertTuple values c) (table k) ((rows.filter fun r => r.1 = k).map (·.2)) =
      some (table' k) := by
  induction rows generalizing table with
  | nil =>
    cases h
    rfl
  | cons r rows ih =>
    obtain ⟨table₁, hstep, hrest⟩ := exec_cons h
    obtain ⟨c, hc, rfl⟩ := map_eq_some_iff.mp hstep
    have ih := ih hrest
    by_cases hk : r.1 = k
    · subst hk
      simpa [exec, hc] using ih
    · rw [update_of_ne (Ne.symm hk)] at ih
      simpa [hk] using ih

theorem foldl_deleteRow (w : WriteTxn) (keys : List Bytes) :
    keys.foldl (fun table k => update table k (w.deleteRow (table k))) table k =
      w.deletions (keys.filter fun k' => k' = k) (table k) := by
  induction keys generalizing table with
  | nil => rfl
  | cons k' keys ih =>
    rw [foldl_cons, ih]
    by_cases hk : k' = k
    · subst hk
      simp [WriteTxn.deletions]
    · simp [hk, update_of_ne (Ne.symm hk)]

theorem applyTableWrite_spec (h : x.applyTableWrite mode table = some table') :
    ∃ c, exec (fun c values => (x.write mode).insertTuple values c) (table k) (x.inserts k) = some c ∧
      table' k = (x.write mode).deletions (x.deletedRows.filter fun k' => k' = k) c := by
  obtain ⟨table₁, hins, rfl⟩ := map_eq_some_iff.mp h
  rw [foldlM_eq_exec] at hins
  exact ⟨table₁ k, exec_insertRow hins, foldl_deleteRow (x.write mode) x.deletedRows⟩

section

variable (x table k)

def Pending : Prop := x.undo.Prepared (x.inserts k).head? (table k)

def Settled : Prop :=
  ((versionsAt x.timestamp (table k)).find? live).map content =
    (x.outcome k).map fun columns => (x.timestamp, columns)

def Unseen : Prop :=
  ∀ v ∈ versionsAt x.timestamp (table k), v.commitOrPrepare = false

end

theorem Pending.unseen (h : x.Pending table k) : x.Unseen table k := by
  rcases h with hnil | ⟨v, hsingle, hv, -⟩
  · intro v hv
    rw [show versionsAt x.timestamp (table k) = [] from hnil] at hv
    cases hv
  · intro u hu
    rw [show versionsAt x.timestamp (table k) = [v] from hsingle, mem_singleton] at hu
    exact hu ▸ hv

theorem Unseen.find_live (h : x.Unseen table k) : (versionsAt x.timestamp (table k)).find? live = none := by
  refine List.find?_eq_none.mpr fun v hv => ?_
  simp [live, h v hv]

/-- Every deletion of the transaction finds a version: one that it inserts itself, or an older one. -/
def Effective (x : TableTxn) (table : Table) : Prop :=
  ∀ k ∈ x.deletedRows, x.inserts k ≠ [] ∨ ∃ v ∈ table k, v.purged = false ∧ v.timestamp ≤ x.timestamp
  deriving Decidable

@[simp] theorem timestamp_write : (x.write mode).timestamp = x.timestamp := rfl

theorem commitOrPrepare_write : (x.write mode).commitOrPrepare = true ↔ mode = .commit := beq_iff_eq

section

variable (hdesc : Descending RowVersion.timestamp (table k)) (hpend : x.Pending table k)
include hdesc hpend

theorem inserts_spec {c : List RowVersion}
    (h : exec (fun c values => (x.write mode).insertTuple values c) (table k) (x.inserts k) = some c) :
    (x.write mode).Touches (table k) c ∧ (x.inserts k = [] ∧ c = table k ∨
        ∃ first, (x.inserts k).head? = some first ∧ (x.write mode).Inserted first c) := by
  have hforce (hc : (x.write mode).commitOrPrepare = true) : (x.write mode).forceMaterialize = false := by
    rw [commitOrPrepare_write.mp hc]
    rfl
  rw [Pending] at hpend
  cases hrows : x.inserts k with
  | nil =>
    rw [hrows] at h
    cases h
    exact ⟨.refl hdesc, .inl ⟨rfl, rfl⟩⟩
  | cons first rest =>
    rw [hrows] at h hpend
    obtain ⟨htouch, hins⟩ := WriteTxn.inserted_of_exec rfl hdesc hforce hpend h
    exact ⟨htouch, .inr ⟨first, rfl, hins⟩⟩

theorem touches_apply
    (h : x.applyTableWrite mode table = some table') : (x.write mode).Touches (table k) (table' k) := by
  obtain ⟨c, hins, hdel⟩ := applyTableWrite_spec h
  have htouch := (inserts_spec hdesc hpend hins).1
  rw [hdel]
  exact htouch.trans (WriteTxn.touches_deletions htouch.descending)

theorem pending_apply
    (hmode : mode ≠ .commit) (h : x.applyTableWrite mode table = some table') : x.Pending table' k := by
  obtain ⟨c, hins, hdel⟩ := applyTableWrite_spec h
  obtain ⟨htouch, hcase⟩ := inserts_spec hdesc hpend hins
  have hprepare : (x.write mode).commitOrPrepare = false := by
    simpa using fun hc => hmode (commitOrPrepare_write.mp hc)
  rw [Pending, hdel]
  rw [Pending] at hpend
  rcases hcase with ⟨hrows, rfl⟩ | ⟨first, hfirst, v, hsingle, hstatus, hpurged, hcontent⟩
  · rw [hrows] at hpend ⊢
    exact WriteTxn.prepared_deletions hdesc hprepare rfl hpend
  -- its own version is there, so deletions have no effect
  rw [hfirst]
  refine .inr ⟨v, ?_, hstatus.trans hprepare, hpurged, hcontent⟩
  refine ((WriteTxn.versionsAt_deletions htouch.descending _ hprepare).resolve_right fun hnil => ?_).trans hsingle
  exact cons_ne_nil v [] (hsingle.symm.trans hnil.1)

theorem settled_apply
    (heff : x.Effective table) (h : x.applyTableWrite .commit table = some table') : x.Settled table' k := by
  obtain ⟨c, hins, hdel⟩ := applyTableWrite_spec h
  obtain ⟨htouch, hcase⟩ := inserts_spec hdesc hpend hins
  rw [Settled, outcome, hdel]
  by_cases hk : k ∈ x.deletedRows
  · have hfinds : ∃ v ∈ c, (x.write .commit).finds v = true := by
      rcases hcase with ⟨hrows, rfl⟩ | ⟨first, hfirst, v, hsingle, -, hpurged, -⟩
      · obtain ⟨v, hv, hpurged, hle⟩ := (heff k hk).resolve_left (not_not.mpr hrows)
        refine ⟨v, hv, ?_⟩
        rw [WriteTxn.finds, hpurged]
        exact decide_eq_true hle
      · obtain ⟨hmem, htime⟩ := mem_group.mp (mem_of_mem_head? (congrArg List.head? hsingle))
        exact ⟨v, hmem, by simp [WriteTxn.finds, hpurged, htime]⟩
    have hkeys : x.deletedRows.filter (fun k' => k' = k) ≠ [] :=
      ne_nil_of_mem (mem_filter.mpr ⟨hk, decide_eq_true rfl⟩)
    obtain ⟨v, hv, hdeleted⟩ := WriteTxn.deleted_deletions htouch.descending rfl rfl hfinds hkeys
    have htime := (mem_group.mp (mem_of_find?_eq_some hv)).2
    rw [timestamp_write] at hv htime
    rw [if_pos hk, hv, map_some, map_some, content, hdeleted, htime]
    rfl
  · have hkeys : x.deletedRows.filter (fun k' => k' = k) = [] :=
      filter_eq_nil_iff.mpr fun k' hk' heq => hk (of_decide_eq_true heq ▸ hk')
    rw [if_neg hk, hkeys]
    show ((versionsAt x.timestamp c).find? _).map _ = _
    rcases hcase with ⟨hrows, rfl⟩ | ⟨first, hfirst, v, hsingle, hstatus, hpurged, hcontent⟩
    · rw [hpend.unseen.find_live, hrows]
      rfl
    · have hlive : v.live = true := by simp [live, hstatus, hpurged, write]
      rw [timestamp_write] at hsingle hcontent
      rw [hsingle, hfirst, List.find?_cons, hlive]
      exact congrArg some hcontent

theorem purgeTableWrite_spec
    (h : x.purgeTableWrite table = some table') : x.undo.Touches (table k) (table' k) ∧ x.Unseen table' k := by
  rw [purgeTableWrite, foldlM_eq_exec] at h
  exact WriteTxn.uncommitted_of_exec rfl hdesc hpend.unseen (exec_insertRow h)

end

end TableTxn

def TableEvent.txn : TableEvent → TableTxn
  | .apply x _ => x
  | .purge x => x

def TableEvent.finishes : TableEvent → Bool
  | .apply _ mode => mode == .commit
  | .purge _ => true

def Final (es : List TableEvent) : Prop := es.Pairwise fun e e' => e.finishes = true → e'.txn ≠ e.txn
  deriving Decidable

def DeletesFind (table : Table) : TableEvent → Prop
  | .apply x mode => mode = .commit → x.Effective table
  | .purge _ => True

instance (table : Table) (e : TableEvent) : Decidable (DeletesFind table e) :=
  match e with
  | .apply x mode => inferInstanceAs (Decidable (mode = .commit → x.Effective table))
  | .purge _ => .isTrue trivial

/-- The versions of a transaction, by what was done for it. -/
structure Reflects (past : List TableEvent) (table : Table) (k : Bytes) (x : TableTxn) : Prop where
  committed (h : .apply x .commit ∈ past) : x.Settled table k
  purged (h : .purge x ∈ past) : x.Unseen table k
  pending (h : ∀ e ∈ past, e.finishes = true → e.txn ≠ x) : x.Pending table k

/-- The chain of a row falls apart into the versions that were there and those of the transactions. -/
structure Consistent (txns : Set TableTxn) (table₀ : Table) (past : List TableEvent) (table : Table) (k : Bytes) :
    Prop where
  descending : Descending RowVersion.timestamp (table k)
  others (t : Timestamp) (ht : ∀ x ∈ txns, x.timestamp ≠ t) : versionsAt t (table k) = versionsAt t (table₀ k)
  reflects (x : TableTxn) (hx : x ∈ txns) : Reflects past table k x

variable {txns : Set TableTxn} {table₀ : Table} {past : List TableEvent} {e : TableEvent}

theorem Reflects.frame (h : Reflects past table k x) (hne : e.txn ≠ x)
    (hsame : versionsAt x.timestamp (table' k) = versionsAt x.timestamp (table k)) :
    Reflects (past ++ [e]) table' k x := by
  have hmem {e' : TableEvent} (he' : e' ∈ past ++ [e]) (htxn : e'.txn = x) : e' ∈ past := by
    rcases mem_append.mp he' with he' | he'
    · exact he'
    · rw [mem_singleton.mp he'] at htxn
      exact absurd htxn hne
  refine ⟨fun he => ?_, fun he => ?_, fun he => ?_⟩
  · rw [Settled, hsame]
    exact h.committed (hmem he rfl)
  · rw [Unseen, hsame]
    exact h.purged (hmem he rfl)
  · have hpend := h.pending fun e' he' => he e' (mem_append_left _ he')
    exact hpend.imp hsame.trans fun ⟨v, hsingle, hv⟩ => ⟨v, hsame.trans hsingle, hv⟩

/-- What is visible of a transaction depends only on whether it is committed. -/
theorem Reflects.find_live (h : Reflects past table k x) :
    ((versionsAt x.timestamp (table k)).find? live).map content =
      if .apply x .commit ∈ past then (x.outcome k).map fun columns => (x.timestamp, columns) else none := by
  split
  · rename_i hcommit
    exact h.committed hcommit
  rename_i hcommit
  have hunseen : x.Unseen table k := by
    by_cases hpurge : .purge x ∈ past
    · exact h.purged hpurge
    refine (h.pending fun e he hfin htxn => ?_).unseen
    subst htxn
    cases e with
    | apply y mode =>
      obtain rfl : mode = .commit := beq_iff_eq.mp hfin
      exact hcommit he
    | purge y => exact hpurge he
  rw [hunseen.find_live]
  rfl

theorem step_spec (hdesc : Descending RowVersion.timestamp (table k)) (hpend : e.txn.Pending table k)
    (hfind : DeletesFind table e) (h : table.step e = some table') :
    e.txn.undo.Touches (table k) (table' k) ∧ (e = .apply e.txn .commit → e.txn.Settled table' k) ∧
      (e = .purge e.txn → e.txn.Unseen table' k) ∧ (e.finishes = false → e.txn.Pending table' k) := by
  cases e with
  | apply x mode =>
    obtain ⟨hd, ho⟩ := touches_apply hdesc hpend h
    refine ⟨⟨hd, ho⟩, fun he => ?_, nofun, fun he => ?_⟩
    · cases he
      exact settled_apply hdesc hpend (hfind rfl) h
    · exact pending_apply hdesc hpend (by simpa [TableEvent.finishes] using he) h
  | purge x =>
    obtain ⟨htouch, hunseen⟩ := purgeTableWrite_spec hdesc hpend h
    exact ⟨htouch, nofun, fun _ => hunseen, nofun⟩

theorem Consistent.step (hts : Set.InjOn timestamp txns) (hfinal : Final (past ++ [e])) (hx : e.txn ∈ txns)
    (hc : Consistent txns table₀ past table k) (hfind : DeletesFind table e) (h : table.step e = some table') :
    Consistent txns table₀ (past ++ [e]) table' k := by
  -- the transaction of the event is not finished
  have hopen : ∀ e' ∈ past, e'.finishes = true → e'.txn ≠ e.txn := by
    intro e' he' hfin
    exact ((pairwise_append.mp hfinal).2.2 e' he' e (mem_singleton_self e) hfin).symm
  obtain ⟨⟨hdesc, hothers⟩, hset, hunseen, hpend⟩ :=
    step_spec hc.descending ((hc.reflects _ hx).pending hopen) hfind h
  refine ⟨hdesc, fun t ht => (hothers t (ht _ hx).symm).trans (hc.others t ht), fun y hy => ?_⟩
  by_cases hxy : e.txn = y
  · subst hxy
    have hlast {e' : TableEvent} (he' : e' ∈ past ++ [e]) (hfin : e'.finishes = true) (htxn : e'.txn = e.txn) :
        e = e' := by
      rcases mem_append.mp he' with he' | he'
      · exact absurd htxn (hopen e' he' hfin)
      · exact (mem_singleton.mp he').symm
    refine ⟨fun he => hset (hlast he rfl rfl), fun he => hunseen (hlast he rfl rfl), fun he => hpend ?_⟩
    simpa using fun hfin => he e (mem_append_right _ (mem_singleton_self e)) hfin rfl
  · exact (hc.reflects y hy).frame hxy (hothers _ fun heq => hxy (hts hx hy heq.symm))

theorem consistent_of_exec {es : List TableEvent} (hts : Set.InjOn timestamp txns)
    (hdesc : ∀ k, Descending RowVersion.timestamp (table₀ k))
    (hnew : ∀ x ∈ txns, ∀ k, ∀ v ∈ table₀ k, v.timestamp ≠ x.timestamp) (htxns : ∀ e ∈ es, e.txn ∈ txns)
    (hfinal : Final es) (hmeets : Meets step DeletesFind table₀ es)
    (h : exec step table₀ es = some table) (k : Bytes) : Consistent txns table₀ es table k := by
  have hinit : Consistent txns table₀ [] table₀ k := by
    refine ⟨hdesc k, fun _ _ => rfl, fun x hx => ⟨nofun, nofun, fun _ => .inl ?_⟩⟩
    refine eq_nil_iff_forall_not_mem.mpr fun v hv => ?_
    obtain ⟨hmem, htime⟩ := mem_group.mp hv
    exact hnew x hx k v hmem htime
  refine exec_history_of_meets (P := fun past table => Final past → Consistent txns table₀ past table k)
    ?_ (fun _ => hinit) (hmeets.and_of_mem htxns) h hfinal
  intro past s e s' hc ⟨hfind, hx⟩ hstep hfinal
  exact (hc (pairwise_append.mp hfinal).1).step hts hfinal hx hfind hstep

/-- Two orders in which every committed deletion finds a version leave the same versions visible. -/
theorem tables_converge {es es' : List TableEvent} {table₁ table₂ : Table}
    (hts : Set.InjOn TableTxn.timestamp txns) (hdesc : ∀ k, Descending RowVersion.timestamp (table₀ k))
    (hnew : ∀ x ∈ txns, ∀ k, ∀ v ∈ table₀ k, v.timestamp ≠ x.timestamp)
    (htxns : ∀ e ∈ es, e.txn ∈ txns) (htxns' : ∀ e ∈ es', e.txn ∈ txns) (hfinal : Final es) (hfinal' : Final es')
    (hcommit : ∀ x ∈ txns, .apply x .commit ∈ es ↔ .apply x .commit ∈ es')
    (hfind : Run.Meets step DeletesFind table₀ es) (hfind' : Run.Meets step DeletesFind table₀ es')
    (h : Run.exec step table₀ es = some table₁) (h' : Run.exec step table₀ es' = some table₂)
    (key : Bytes) (time : Timestamp) :
    (table₁.visible key time).map RowVersion.content = (table₂.visible key time).map RowVersion.content := by
  have hc := consistent_of_exec hts hdesc hnew htxns hfinal hfind h key
  have hc' := consistent_of_exec hts hdesc hnew htxns' hfinal' hfind' h' key
  refine latest_eq hc.descending hc'.descending (fun t => ?_) time
  show ((versionsAt t (table₁ key)).find? _).map _ = ((versionsAt t (table₂ key)).find? _).map _
  by_cases ht : ∃ x ∈ txns, x.timestamp = t
  · obtain ⟨x, hx, rfl⟩ := ht
    refine ((hc.reflects x hx).find_live).trans (Eq.trans ?_ ((hc'.reflects x hx).find_live).symm)
    exact if_congr (hcommit x hx) rfl rfl
  · rw [hc.others t fun x hx heq => ht ⟨x, hx, heq⟩, hc'.others t fun x hx heq => ht ⟨x, hx, heq⟩]

def insertingTxn : TableTxn := ⟨⟨10, 0⟩, [1], [([7], ⟨[[42]], false, 0⟩)]⟩

def deletingTxn : TableTxn := ⟨⟨20, 0⟩, [2], [([7], ⟨[[42]], true, 0⟩)]⟩

/-- The deletion is applied first, finds no version and leaves nothing. -/
theorem lost_deletion : insertingTxn.timestamp ≠ deletingTxn.timestamp ∧ ∃ table₁ table₂ : Table,
      Run.exec step (fun _ => []) [.apply insertingTxn .commit, .apply deletingTxn .commit] = some table₁ ∧
      Run.exec step (fun _ => []) [.apply deletingTxn .commit, .apply insertingTxn .commit] = some table₂ ∧
      (table₁.visible [7] ⟨30, 0⟩).map RowVersion.content = some (⟨20, 0⟩, none) ∧
      (table₂.visible [7] ⟨30, 0⟩).map RowVersion.content = some (⟨10, 0⟩, some [[42]]) :=
  ⟨by decide, _, _, rfl, rfl, by decide +kernel, by decide +kernel⟩

/-- The insert is prepared, the deletion committed on top of it, and the insert committed last. -/
theorem tables_converge_prepared : ∃ table₁ table₂ : Table,
    Run.exec step (fun _ => []) [.apply insertingTxn .commit, .apply deletingTxn .commit] = some table₁ ∧
    Run.exec step (fun _ => [])
      [.apply insertingTxn .prepare, .apply deletingTxn .commit, .apply insertingTxn .commit] = some table₂ ∧
    (table₁.visible [7] ⟨30, 0⟩).map RowVersion.content = (table₂.visible [7] ⟨30, 0⟩).map RowVersion.content := by
  have hrun₁ : exec step (fun _ => [])
      [.apply insertingTxn .commit, .apply deletingTxn .commit] = some _ := rfl
  have hrun₂ : exec step (fun _ => [])
      [.apply insertingTxn .prepare, .apply deletingTxn .commit, .apply insertingTxn .commit] = some _ := rfl
  have hts : Set.InjOn timestamp {insertingTxn, deletingTxn} := by
    rintro x (rfl | rfl) y (rfl | rfl) <;> decide
  have hcommit : ∀ x ∈ ({insertingTxn, deletingTxn} : Set TableTxn),
      .apply x .commit ∈ [TableEvent.apply insertingTxn .commit, .apply deletingTxn .commit] ↔ .apply x .commit ∈
          [TableEvent.apply insertingTxn .prepare, .apply deletingTxn .commit, .apply insertingTxn .commit] := by
    rintro x (rfl | rfl) <;> decide
  exact ⟨_, _, hrun₁, hrun₂, tables_converge hts (fun _ => List.Pairwise.nil) nofun
    (by simp [TableEvent.txn]) (by simp [TableEvent.txn]) (by decide) (by decide) hcommit (by decide +kernel)
    (by decide +kernel) hrun₁ hrun₂ [7] ⟨30, 0⟩⟩

end Pequin
