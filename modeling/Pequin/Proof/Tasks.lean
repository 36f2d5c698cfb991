import Pequin.Proof.Logger

/-!
# Where tasks come from

Work that a replica has dispatched was asked for by a message: the one being handled, one
that was held back until the Phase1 arrived, or the one an earlier task came from. A task
carries the parts of that message, a transaction known when it was dispatched, and the
local vote or decision of that moment (`act_tasks`).
-/

namespace Pequin

open Option

variable {t : Task} {out : List SignedBody} {view : Nat} {dec : CommitDecision} {srv : Server} {d : Digest}
  {st₀ st st' : TxnState} {inp : Input}

section

variable (srv d st inp)

def Task.message : Task → Option Message
  | .tryPrepare txn isGossip => some (.phase1 txn isGossip)
  | .tryExec txn => some (.phase1FB txn)
  | .phase2 msg _ _ => some (.phase2 msg)
  | .p2fbReplies msg _ _ _ => some (.phase2FB msg)
  | .p2fbVotes msg _ _ _ => some (.phase2FB msg)
  | .invokeReplies msg _ _ _ _ => some (.invokeFB msg)
  | .invokeVotes msg _ _ _ _ => some (.invokeFB msg)
  | .verifyViews msg _ _ _ => some (.invokeFB msg)
  | .ownElect _ _ => none
  | .elect msg => some (.electFB msg)
  | .decision msg _ _ => some (.decisionFB msg)
  | .writebackP1 msg _ _ _ => some (.writeback msg)
  | .writebackP2 msg _ _ _ _ => some (.writeback msg)
  | .writebackConflict msg _ _ => some (.writeback msg)
  | .supply proof => some (.supply d proof)

def Task.txn? : Task → Option Transaction
  | .phase2 _ txn _ => some txn
  | .p2fbReplies _ txn _ _ => some txn
  | .p2fbVotes _ txn _ _ => some txn
  | .invokeReplies _ _ txn _ _ => some txn
  | .invokeVotes _ _ txn _ _ => some txn
  | .decision _ txn _ => some txn
  | .writebackP1 _ txn _ _ => some txn
  | .writebackP2 _ txn _ _ _ => some txn
  | .writebackConflict _ txn _ => some txn
  | _ => none

/-- The local vote that stands in for the replica's own signature. -/
def Task.myVote : Task → Option Result
  | .phase2 _ _ my => my
  | .p2fbVotes _ _ _ my => my
  | .invokeVotes _ _ _ _ my => my
  | .writebackP1 _ _ _ my => my
  | _ => none

def Task.myDecision : Task → Option CommitDecision
  | .p2fbReplies _ _ _ my => my
  | .invokeReplies _ _ _ _ my => my
  | .decision _ _ my => my
  | .writebackP2 _ _ _ _ my => my
  | _ => none

def Task.FromMessage : Task → Prop
  | .p2fbReplies msg _ replies _ => msg.p2Replies = some replies
  | .p2fbVotes msg _ sigs _ => msg.p1Sigs = some sigs
  | .invokeReplies msg p2fb _ replies _ => msg.p2fb = some p2fb ∧ p2fb.p2Replies = some replies
  | .invokeVotes msg p2fb _ sigs _ => msg.p2fb = some p2fb ∧ p2fb.p1Sigs = some sigs
  | .writebackP1 msg _ sigs _ => msg.sigs = .p1 sigs
  | .writebackP2 msg _ sigs view _ => msg.sigs = .p2 sigs (some view)
  | .writebackConflict msg _ proof => msg.sigs = .conflict proof ∧ msg.decision = .abort
  | .supply proof => proof.txn.isGenesis = false
  | _ => True

def Message.txns : Message → List Transaction
  | .phase1 txn _ => [txn]
  | .phase1FB txn => [txn]
  | .phase2 m => m.txn.toList
  | .phase2FB m => m.txn.toList
  | .invokeFB m => (m.p2fb.bind Phase2FB.txn).toList
  | .writeback m => m.txn.toList
  | .supply _ proof => [proof.txn]
  | _ => []

def OoMsg.message : OoMsg → Message
  | .phase2 msg => .phase2 msg
  | .writeback msg => .writeback msg

def AtHand (m : Message) : Prop :=
  (∃ occ, inp = .message m occ) ∨ (∃ o, st.oo = some o ∧ o.message = m) ∨
    ∃ t, inp.task? st = some t ∧ t.message d = some m

def TxnAtHand (txn : Transaction) : Prop :=
  st.ongoing = some txn ∨ ∃ m, AtHand d st inp m ∧ txn ∈ m.txns

/-- A task dispatched in a step that signs `out`. -/
structure Fresh (out : List SignedBody) (t : Task) : Prop where
  message : ∀ m, t.message d = some m → AtHand d st inp m
  fromMessage : t.FromMessage
  txn : ∀ txn, t.txn? = some txn → TxnAtHand d st inp txn
  myVote : t.myVote = none ∨ t.myVote = st.lookupP1Decision
  myDecision : t.myDecision = none ∨ t.myDecision = st.lookupP2Decision
  clientDriven : t.isVerifyViews = true → srv.allToAllFb = false
  ownElect : ∀ view dec, t = .ownElect view dec → SignedBody.electMessage 0 d dec view ∈ out
  invoke : t.isInvoke = true → Invoked srv d st inp

/-- A signature that the step counts for a decision in a view. -/
def Counted (view : Nat) (dec : CommitDecision) (s : Signature) : Prop :=
  ∃ t, inp.task? st = some t ∧ t.accepted srv d = true ∧ t.counts srv d = some (view, dec, s)

end

/-- After an act the tasks are old or fresh; what is held back or ongoing was so or is in a message at hand; the ElectFB
signatures were there or are counted in the step. -/
structure TasksFrom (srv : Server) (d : Digest) (st₀ : TxnState) (inp : Input) (st : TxnState) (a : Act) : Prop where
  tasks : ∀ t ∈ a.1.tasks, t ∈ st.tasks ∨ Fresh srv d st₀ inp a.2 t
  oo : ∀ o, a.1.oo = some o → st.oo = some o ∨ AtHand d st₀ inp o.message
  ongoing : ∀ txn, a.1.ongoing = some txn → st.ongoing = some txn ∨ TxnAtHand d st₀ inp txn
  sigs : ∀ view dec, ∀ s ∈ a.1.electSigs view dec, s ∈ st.electSigs view dec ∨ Counted srv d st₀ inp view dec s

namespace TasksFrom

variable {a : Act}

theorem idle (ht : a.1.tasks = st.tasks) (ho : a.1.oo = st.oo ∨ a.1.oo = none)
    (hg : a.1.ongoing = st.ongoing ∨ a.1.ongoing = none)
    (hs : ∀ view dec, ∀ s ∈ a.1.electSigs view dec, s ∈ st.electSigs view dec) : TasksFrom srv d st₀ inp st a where
  tasks t h := .inl (ht ▸ h)
  oo o h := by
    rcases ho with ho | ho
    · exact .inl (ho ▸ h)
    · rw [ho] at h; cases h
  ongoing txn h := by
    rcases hg with hg | hg
    · exact .inl (hg ▸ h)
    · rw [hg] at h; cases h
  sigs view dec s h := .inl (hs view dec s h)

theorem dispatch (hf : Fresh srv d st₀ inp out t) : TasksFrom srv d st₀ inp st (st.dispatch t, out) where
  tasks u h := by
    rcases List.mem_append.mp h with h | h
    · exact .inl h
    · exact .inr (List.mem_singleton.mp h ▸ hf)
  oo o h := .inl h
  ongoing txn h := .inl h
  sigs view dec s h := .inl h

end TasksFrom

/-- No task is dispatched. -/
structure SameTasks (st' st : TxnState) : Prop where
  tasks : st'.tasks = st.tasks
  oo : st'.oo = st.oo
  ongoing : st'.ongoing = st.ongoing ∨ st'.ongoing = none
  sigs : ∀ view dec, ∀ s ∈ st'.electSigs view dec, s ∈ st.electSigs view dec

namespace SameTasks

theorem rfl' (st : TxnState) : SameTasks st st := ⟨rfl, rfl, .inl rfl, fun _ _ _ h => h⟩

theorem trans {st₁ st₂ st₃ : TxnState} (h : SameTasks st₁ st₂) (h' : SameTasks st₂ st₃) : SameTasks st₁ st₃ := by
  refine ⟨h.tasks.trans h'.tasks, h.oo.trans h'.oo, ?_, fun view dec s hs => h'.sigs view dec s (h.sigs view dec s hs)⟩
  rcases h.ongoing with hg | hg
  · rw [hg]; exact h'.ongoing
  · exact .inr hg

theorem tasksFrom {a : Act} (h : SameTasks a.1 st) : TasksFrom srv d st₀ inp st a :=
  TasksFrom.idle h.tasks (.inl h.oo) h.ongoing h.sigs

end SameTasks

theorem TasksFrom.same : TasksFrom srv d st₀ inp st (st, out) :=
  (SameTasks.rfl' st).tasksFrom

section Same

variable (srv) (d) (st)

theorem sameTasks_clean (hard : Bool) : SameTasks (st.clean hard) st := ⟨rfl, rfl, .inr rfl, nofun⟩

theorem sameTasks_doOCCCheck (occ : OccOutcome) : SameTasks (doOCCCheck srv d st occ).1 st := by
  cases occ with
  | conflict proof => exact ⟨rfl, rfl, .inr rfl, nofun⟩
  | _ => exact ⟨rfl, rfl, .inl rfl, fun _ _ _ h => h⟩

theorem sameTasks_bufferP1Result (r : Result) (isGossip : Bool) (fb : Nat) :
    SameTasks (bufferP1Result st r isGossip fb).state st := by
  unfold bufferP1Result
  dsimp only
  split
  · exact sameTasks_clean st true
  · repeat' split
    all_goals exact ⟨rfl, rfl, .inl rfl, fun _ _ _ h => h⟩

theorem sameTasks_processMoveView (view : Nat) (self : Bool) :
    SameTasks (processMoveView srv st view self) st := ⟨rfl, rfl, .inl rfl, fun _ _ _ h => h⟩

theorem electSigs_update (st : TxnState) {org org' : ElectFBorganizer} {q : List Nat × List Signature}
    (horg : st.elect.getD {} = org) (horg' : org'.viewQuorums = Function.update org.viewQuorums view
      (Function.update (org.viewQuorums view) dec q)) (v : Nat) (e : CommitDecision) :
    { st with elect := some org' }.electSigs v e = if v = view ∧ e = dec then q.2 else st.electSigs v e := by
  simp only [TxnState.electSigs, getD_some, horg', horg]
  by_cases hv : v = view
  · subst hv
    by_cases he : e = dec
    · subst he
      simp
    · simp [he]
  · simp [hv]

theorem sameTasks_preProcessElectFB {st st' : TxnState} {pid : Nat}
    (h : preProcessElectFB st view dec pid = some st') : SameTasks st' st := by
  unfold preProcessElectFB at h
  dsimp only at h
  split at h
  · cases h
  cases h
  refine ⟨rfl, rfl, .inl rfl, fun v e s hs => ?_⟩
  rw [electSigs_update st rfl rfl] at hs
  split at hs
  · rename_i hve
    rw [hve.1, hve.2]
    exact hs
  · exact hs

end Same

section Dispatching

variable {txn : Transaction}

theorem Fresh.plain {m : Message} (hm : t.message d = some m)
    (hh : AtHand d st₀ inp m) (hf : t.FromMessage) (ht : t.txn? = none) (hv : t.myVote = none)
    (hd : t.myDecision = none) (hc : t.isVerifyViews = true → srv.allToAllFb = false)
    (hi : t.isInvoke = true → Invoked srv d st₀ inp) : Fresh srv d st₀ inp out t where
  message m' h := by
    rw [hm] at h
    exact some.inj h ▸ hh
  fromMessage := hf
  txn txn h := by rw [ht] at h; cases h
  myVote := .inl hv
  myDecision := .inl hd
  clientDriven := hc
  ownElect view dec h := by rw [h] at hm; cases hm
  invoke := hi

theorem Fresh.certificate {m : Message} (hm : t.message d = some m) (hh : AtHand d st₀ inp m) (hf : t.FromMessage)
    (ht : t.txn? = some txn) (hx : TxnAtHand d st₀ inp txn) (hv : t.myVote = none ∨ t.myVote = st₀.lookupP1Decision)
    (hd : t.myDecision = none ∨ t.myDecision = st₀.lookupP2Decision)
    (hi : t.isInvoke = true → Invoked srv d st₀ inp) : Fresh srv d st₀ inp out t where
  message m' h := by
    rw [hm] at h
    exact some.inj h ▸ hh
  fromMessage := hf
  txn txn' h := by
    rw [ht] at h
    exact some.inj h ▸ hx
  myVote := hv
  myDecision := hd
  clientDriven h := by cases t <;> simp [Task.isVerifyViews, Task.txn?] at h ht
  ownElect view dec h := by rw [h] at hm; cases hm
  invoke := hi

theorem Fresh.mono {out' : List SignedBody} (h : Fresh srv d st₀ inp out t) (hsub : ∀ b ∈ out, b ∈ out') :
    Fresh srv d st₀ inp out' t :=
  { h with ownElect := fun view dec he => hsub _ (h.ownElect view dec he) }

theorem TasksFrom.trans {a : Act} (h : TasksFrom srv d st₀ inp st (st', out))
    (h' : TasksFrom srv d st₀ inp st' a) : TasksFrom srv d st₀ inp st (a.1, out ++ a.2) where
  tasks t ht := by
    rcases h'.tasks t ht with ht | hf
    · exact (h.tasks t ht).imp id fun hf => hf.mono fun b hb => List.mem_append_left _ hb
    · exact .inr (hf.mono fun b hb => List.mem_append_right _ hb)
  oo o ho := (h'.oo o ho).elim (h.oo o) .inr
  ongoing txn hg := (h'.ongoing txn hg).elim (h.ongoing txn) .inr
  sigs view dec s hs := (h'.sigs view dec s hs).elim (h.sigs view dec s) .inr

theorem tasksFrom_sendElectFB (view : Nat) (dec : CommitDecision) :
    TasksFrom srv d st₀ inp st (sendElectFB srv d st view dec) := by
  unfold sendElectFB
  split
  · refine .dispatch ⟨fun m h => (by cases h), trivial, fun txn h => (by cases h), .inl rfl,
      .inl rfl, nofun, fun v e h => ?_, nofun⟩
    cases h
    exact List.mem_singleton_self _
  · exact .same

end Dispatching

end Pequin
