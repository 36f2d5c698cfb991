import Pequin.Proof.Evidence

/-!
# Proper runs

The conditions under which a step of a replica keeps the invariant of the cluster, and the invariant
along the runs whose steps meet them. Each condition closes a gap that the handlers leave:

* a certificate may list votes of groups that the transaction does not involve, and signatures under other messages
  with the same bytes;
* a leader may count a replica twice, when an ElectFB is verified after a clean-up;
* a transaction that was voted on may be ignored or aborted in a second check, and is then answered for from the set of
  aborted transactions.
-/

namespace Pequin

open Bool List Option Outcome Quorum World

variable {o : Outcome} {nd : Node} {r : Nat} {m : Message} {K' : Knowledge} {t : Task} {c : Cluster} {T : Transaction}
  {d : Digest} {w w' : World}

/-- The message that is delivered. -/
def Input.message? : Input → Option Message
  | .message m _ => some m
  | _ => none

def Input.wake? : Input → Option Bool
  | .wake b => some b
  | _ => none

/-- On a transaction that was dropped locally, no vote changes and none is answered for. -/
structure KeepsDropped (st : TxnState) (inp : Input) : Prop where
  phase2 : inp.asksPhase2 st = true → st.p2.hasP2 = true ∨ st.committed.isSome = true
  answered : inp.prepares st = true → st.ongoing = none → st.p1.result ≠ some .commit
  checked : (st.outcome []).undecided = true →
    inp.prepares st = true ∧ st.ongoing.isSome = true ∨ inp.executes st = true → inp.occ? ≠ some .commit
  resolved : (st.outcome []).undecided = true → ∀ b ∈ inp.wake?, (st.outcome []).resolution b ≠ some .commit

instance (st : TxnState) (inp : Input) : Decidable (KeepsDropped st inp) :=
  decidable_of_iff (_ ∧ _ ∧ _ ∧ _)
    ⟨fun h => ⟨h.1, h.2.1, h.2.2.1, h.2.2.2⟩, fun h => ⟨h.1, h.2, h.3, h.4⟩⟩

section Conditions

variable (c) (T) (d)

instance (dec : CommitDecision) (sigs : ProofSigs) : Decidable (ProperSigs c T d dec sigs) := by
  cases sigs <;> unfold ProperSigs <;> infer_instance

instance (m : Message) : Decidable (m.Proper c T d) := by
  cases m <;> unfold Message.Proper <;> infer_instance

/-- The conditions of a step. -/
structure ProperStep (srv : Server) (st : TxnState) (inp : Input) : Prop where
  message : ∀ m ∈ inp.message?, m.Proper c T d ∧ ∀ t ∈ m.txns, t = T
  election : ∀ t ∈ inp.task? st, ∀ x ∈ t.counts srv d, (st.electSigs x.1 x.2.1).length = 2 * c.config.f →
    ((st.electSigs x.1 x.2.1 ++ [x.2.2]).map Signature.processId).Nodup
  ignored : inp.executes st = true → inp.occ? = some .ignore → st.p1.result = none
  dropped : (st.outcome []).droppedLocally = true → KeepsDropped st inp

instance (srv : Server) (st : TxnState) (inp : Input) : Decidable (ProperStep c T d srv st inp) :=
  decidable_of_iff (_ ∧ _ ∧ _ ∧ _)
    ⟨fun h => ⟨h.1, h.2.1, h.2.2.1, h.2.2.2⟩, fun h => ⟨h.1, h.2, h.3, h.4⟩⟩

/-- A step for the digest `d` meets the conditions. -/
def World.proper (w : World) (e : Event) : Prop :=
  e.digest c.digestOf = d → ProperStep c T d (c.server e.replica) (w e.replica d).state e.input
  deriving Decidable

end Conditions

/-! ## What a step rests on -/

section Steps

variable {srv : Server} {st : TxnState} {inp : Input}

theorem Outcome.Of.droppedLocally (h : o.Of st) : o.droppedLocally = (st.outcome []).droppedLocally := by
  rw [Outcome.droppedLocally, Outcome.certAborted, h.aborted, h.writeback]
  rfl

theorem Outcome.Of.undecided (h : o.Of st) : o.undecided = (st.outcome []).undecided := by
  rw [Outcome.undecided, h.result]
  rfl

theorem ProperStep.steady {e : OutcomeEvent} (h : ProperStep c T d srv st inp)
    (hj : Justified srv d st inp o e) : o.Steady e := by
  cases e with
  | check occ exec =>
    obtain ⟨hof, hocc, hprep, hexec⟩ := hj
    refine ⟨fun hi he => ?_, fun hd hu hc => ?_⟩
    · rw [hof.result]
      exact h.ignored (hexec he) (hi ▸ hocc)
    rw [hof.droppedLocally] at hd
    rw [hof.undecided] at hu
    refine (h.dropped hd).checked hu ?_ (hc ▸ hocc)
    cases exec with
    | false => exact .inl ⟨(hprep rfl).1, (hprep rfl).2.1⟩
    | true => exact .inr (hexec rfl)
  | resolve b =>
    obtain ⟨hof, hinp, hongoing⟩ := hj
    intro hd hu
    rw [hof.droppedLocally] at hd
    rw [hof.undecided] at hu
    have hres := (h.dropped hd).resolved hu b (by rw [hinp]; rfl)
    rw [resolution, hongoing, hof.committed, hof.aborted]
    exact hres
  | _ => trivial

/-- A proper step keeps a vote. -/
theorem ProperStep.result (h : ProperStep c T d srv nd.state inp) {r : Result}
    (hr : nd.state.p1.result = some r) (hw : r ≠ .wait) : (nd.step srv d inp).state.p1.result = some r :=
  Run.Reaches.invariant (P := fun o : Outcome => o.result = some r)
    (fun ho hj hs => result_step (h.steady hj) hs ho hw) hr (Node.step_outcome srv d nd inp)

theorem ProperStep.accepts (h : ProperStep c T d srv nd.state inp) (ha : nd.outcome.accepts) :
    (nd.step srv d inp).outcome.accepts :=
  h.result ha (by decide)

theorem ProperStep.refuses (h : ProperStep c T d srv nd.state inp) (hr : nd.outcome.refuses) :
    (nd.step srv d inp).outcome.refuses :=
  Run.Reaches.invariant (P := Outcome.refuses)
    (fun ho hj hs => refuses_step (h.steady hj) hs ho) hr (Node.step_outcome srv d nd inp)

end Steps

/-! ## Knowledge only grows -/

/-- No signature and no vote is lost from `w` to `w'`. -/
structure World.Later (c : Cluster) (d : Digest) (w w' : World) : Prop where
  signed : ∀ r d' b, b ∈ (w r d').signed → b ∈ (w' r d').signed
  accepts : ∀ r, (w r d).outcome.accepts → (w' r d).outcome.accepts
  refuses : ∀ r, (w r d).outcome.refuses → (w' r d).outcome.refuses

theorem World.Later.of_step {e : Event} (hp : w.proper c T d e) (hs : step c w e = some w') : Later c d w w' := by
  have hsigned := fun r d' b => signed_mono_step hs (r := r) (d := d') (b := b)
  obtain ⟨-, -, rfl⟩ := step_eq hs
  have hnode : ∀ P : Outcome → Prop, (e.digest c.digestOf = d → P (w e.replica d).outcome →
        P ((w e.replica d).step (c.server e.replica) d e.input).outcome) → ∀ r, P (w r d).outcome →
      P (set w e.replica (e.digest c.digestOf) ((w e.replica (e.digest c.digestOf)).step
        (c.server e.replica) (e.digest c.digestOf) e.input) r d).outcome := by
    intro P hP r hr
    by_cases hrd : r = e.replica ∧ d = e.digest c.digestOf
    · obtain ⟨rfl, hd⟩ := hrd
      rw [← hd, set_self]
      exact hP hd.symm hr
    · rw [set_of_ne _ _ hrd]
      exact hr
  exact ⟨hsigned, hnode _ fun hd => (hp hd).accepts, hnode _ fun hd => (hp hd).refuses⟩

section

variable (h : Later c d w w')
include h

theorem World.Later.genuine {s : Sig} (hs : genuine c w s = true) : genuine c w' s = true :=
  genuine_iff.mpr ((genuine_iff.mp hs).imp_right (h.signed _ _ _))

theorem World.Later.ballot {b : SignedBody} (hb : b ∈ (w r d).logger.signed) : b ∈ (w' r d).logger.signed :=
  mem_filter.mpr ⟨h.signed _ _ _ (mem_filter.mp hb).1, (mem_filter.mp hb).2⟩

theorem Votes.mono {q : Nat} {dec : CommitDecision} (hv : Votes c T d w q dec) : Votes c T d w' q dec := by
  cases dec with
  | commit => exact fun g hg => (hv g hg).mono (Nat.le_refl _) fun r _ _ => h.accepts r
  | abort =>
    obtain ⟨g, hg, hatt⟩ := hv
    exact ⟨g, hg, hatt.mono (Nat.le_refl _) fun r _ _ => h.refuses r⟩

/-- What is known stays known. -/
theorem know_mono : (know c T d w).Le (know c T d w') where
  voted _ hv := Votes.mono h hv
  cert dec hc := by
    refine hc.imp (Votes.mono h) ?_
    rintro ⟨v, L, hL, hatt⟩
    exact ⟨v, L, hL, hatt.mono (Nat.le_refl _) fun _ _ _ => h.ballot⟩
  elected dec v he := by
    obtain ⟨L, hL, hatt⟩ := he
    exact ⟨L, hL, hatt.mono (Nat.le_refl _) fun _ _ _ => h.ballot⟩

theorem MsgInv.mono (hm : MsgInv c T d w m) : MsgInv c T d w' m :=
  ⟨hm.digest, hm.proper, hm.txns, fun s hs => h.genuine (hm.genuine s hs)⟩

theorem SigInv.mono {v : Nat} {dec : CommitDecision} {s : Signature}
    (hs : SigInv c T d w v dec s) : SigInv c T d w' v dec s :=
  ⟨hs.member, hs.signer, hs.body, h.genuine hs.genuine⟩

theorem TaskInv.mono {K : Knowledge} {nd' : Node}
    (hK : K.Le K') (hres : ∀ res, nd.state.p1.result = some res → res ≠ .wait →
      nd'.state.p1.result = some res) (hsigned : ∀ b ∈ nd.logger.signed, b ∈ nd'.logger.signed)
    (ht : TaskInv c T d w K r nd t) : TaskInv c T d w' K' r nd' t where
  message m hm := (ht.message m hm).mono h
  fromMessage := ht.fromMessage
  txn := ht.txn
  vote res hv := ⟨hres res (ht.vote res hv).1 (ht.vote res hv).2, (ht.vote res hv).2⟩
  decision dec hd := hK.voted dec (ht.decision dec hd)
  ownElect v dec ho := hsigned _ (ht.ownElect v dec ho)
  invoke := ht.invoke

theorem NodeInv.mono {K : Knowledge} (hK : K.Le K') (hn : NodeInv c T d w K r nd) : NodeInv c T d w' K' r nd where
  votes := hn.votes.mono hK
  ballots := hn.ballots.mono hK
  locks hmode := (hn.locks hmode).mono hK id
  tasks t ht := (hn.tasks t ht).mono h hK (fun _ hr _ => hr) fun _ hb => hb
  oo o ho := (hn.oo o ho).mono h
  ongoing := hn.ongoing
  sigs v dec s hs := (hn.sigs v dec s hs).mono h
  views := hn.views
  own := hn.own
  member := hn.member

end

/-- A correct replica makes a proper step on `d`, in a world with the invariant. -/
structure Handles (c : Cluster) (T : Transaction) (d : Digest) (w : World) (e : Event) : Prop where
  tolerant : c.Tolerant
  groups : ∀ g ∈ T.involvedGroups, g < 2 ^ 32
  inv : ClusterInv c T d w
  digest : e.digest c.digestOf = d
  correct : c.byzantine e.replica = false
  genuine : ∀ s ∈ e.sigs, World.genuine c w s = true
  proper : ProperStep c T d (c.server e.replica) (w e.replica d).state e.input

namespace Handles

variable {e : Event}

section

variable (h : Handles c T d w e)
include h

theorem node : NodeInv c T d w (know c T d w) e.replica (w e.replica d) :=
  h.inv e.replica h.correct

theorem task (ht : e.input.task? (w e.replica d).state = some t) :
    TaskInv c T d w (know c T d w) e.replica (w e.replica d) t :=
  h.node.tasks t (Input.task?_mem ht)

theorem message {occ : OccOutcome} (he : e.input = .message m occ) : MsgInv c T d w m := by
  obtain ⟨hproper, htxns⟩ := h.proper.message m (by rw [he]; rfl)
  have hdigest := h.digest
  have hgenuine := h.genuine
  cases e with
  | deliver r msg occ' =>
    cases he
    exact ⟨hdigest, hproper, htxns, hgenuine⟩
  | _ => cases he

/-- The messages that a step works on have the invariant. -/
theorem atHand (hm : AtHand d (w e.replica d).state e.input m) : MsgInv c T d w m := by
  rcases hm with ⟨occ, he⟩ | ⟨o, ho, rfl⟩ | ⟨t, ht, hm⟩
  · exact h.message he
  · exact h.node.oo o ho
  · exact (h.task ht).message m hm

theorem txnAtHand {x : Transaction} (hx : TxnAtHand d (w e.replica d).state e.input x) : x = T := by
  rcases hx with hx | ⟨m, hm, hx⟩
  · exact h.node.ongoing x hx
  · exact (h.atHand hm).txns x hx

/-- Only replicas of the logging group vote in elections. -/
theorem invoked (hi : Invoked (c.server e.replica) d (w e.replica d).state e.input) : InLogGroup c T d e.replica := by
  rcases hi with ⟨msg, occ, txn, he, htxn, hgroup⟩ | ⟨t, ht, hinvoke⟩
  · have hT : txn = T := by
      rcases or_eq_some_iff.mp htxn with hx | ⟨-, hx⟩
      · exact h.node.ongoing txn hx
      · refine (h.message he).txns txn ?_
        rw [Message.txns, hx]
        exact mem_singleton_self _
    rw [hT] at hgroup
    exact hgroup
  · exact (h.task ht).invoke hinvoke

/-- The outcome changes only by what is known. -/
theorem foundedOutcome {o' : Outcome} {ev : OutcomeEvent}
    (hj : Justified (c.server e.replica) d (w e.replica d).state e.input o ev)
    (hs : o.step (c.server e.replica) d ev = some o') : o.Founded (know c T d w) ev := by
  cases ev with
  | answer dec =>
    cases dec with
    | commit => trivial
    | abort =>
      intro hd ha
      obtain ⟨hof, hcase⟩ := hj
      rw [hof.droppedLocally] at hd
      rw [accepts, hof.result] at ha
      rcases hcase with hnone | ⟨hprep, hong⟩
      · rw [hnone] at ha
        cases ha
      · exact (h.proper.dropped hd).answered hprep hong ha
  | commit proof =>
    obtain ⟨-, t, ht, hacc, hc, -⟩ := hj
    exact (h.task ht).commits_cert h.tolerant h.groups h.inv hacc hc
  | abort wb =>
    obtain ⟨-, t, ht, hacc, hb⟩ := hj
    exact fun hc => (h.task ht).aborts_cert h.tolerant h.groups h.inv hacc hb hc
  | _ => trivial

/-- The Phase2 record changes only by what is known. -/
theorem foundedLogger {l l' : Logger} {ev : LogEvent}
    (ha : Allowed (c.server e.replica) d (w e.replica d).state e.input l.p2 ev)
    (hs : l.step (c.server e.replica) d ev = some l') :
    Logger.Founded (know c T d w) ((w e.replica d).state.forwardWriteback = true) ev := by
  have hen := (Logger.step_eq hs).1
  have hvotes := h.node.votes
  cases ev with
  | shortcut dec =>
    cases dec with
    | commit =>
      obtain ⟨-, hcom⟩ := ha
      exact ⟨voted_of_cert h.tolerant h.inv (hvotes.committed hcom), by rw [TxnState.forwardWriteback, hcom]; rfl⟩
    | abort =>
      obtain ⟨hp, hasks, hab, hcom⟩ := ha
      -- without a certificate, the condition rules the reply out
      have hcert : (w e.replica d).outcome.certAborted = true := by
        by_contra hnot
        rw [not_eq_true] at hnot
        have hdropped : ((w e.replica d).state.outcome []).droppedLocally = true := by
          have hnot' : ((w e.replica d).state.outcome []).certAborted = false := hnot
          have hab' : ((w e.replica d).state.outcome []).aborted = true := hab
          rw [Outcome.droppedLocally, hab', hnot']
          rfl
        rcases (h.proper.dropped hdropped).phase2 hasks with hrec | hcom'
        · simp [LogEvent.enabled, hp, hrec] at hen
        · rw [hcom] at hcom'
          cases hcom'
      refine ⟨voted_of_cert h.tolerant h.inv (hvotes.aborted hcert), ?_⟩
      have hwb : (w e.replica d).state.writeback.isSome = true := by
        cases hw : (w e.replica d).state.writeback with
        | some wb => rfl
        | none => simp [Node.outcome, TxnState.outcome, Outcome.certAborted, hw] at hcert
      rw [TxnState.forwardWriteback, hwb, Bool.or_true]
  | log dec view =>
    obtain ⟨-, hfw, t, ht, hacc, hl⟩ := ha
    exact ⟨(h.task ht).logs_voted h.tolerant h.groups h.inv hacc hl, by rw [hfw]; decide⟩
  | record dec view =>
    obtain ⟨-, t, ht, hacc, hl⟩ := ha
    exact (h.task ht).logs_voted h.tolerant h.groups h.inv hacc hl
  | adopt view dec =>
    obtain ⟨-, t, ht, hacc, had⟩ := ha
    have he : Elected c T d w dec view :=
      (h.task ht).adopts_elected h.tolerant h.inv h.correct hacc
        (fun v dec s hc hlen => h.proper.election t ht (v, dec, s) hc hlen) had
    exact ⟨voted_of_elected h.tolerant h.inv he, he⟩
  | _ => trivial

theorem member {l l' : Logger} {ev : LogEvent}
    (ha : Allowed (c.server e.replica) d (w e.replica d).state e.input l.p2 ev)
    (hs : l.step (c.server e.replica) d ev = some l')
    (hl : ∀ dec v, .electMessage 0 d dec v ∈ l.signed → InLogGroup c T d e.replica) :
    ∀ dec v, .electMessage 0 d dec v ∈ l'.signed → InLogGroup c T d e.replica := by
  obtain ⟨-, rfl⟩ := Logger.step_eq hs
  intro dec v hb
  rcases mem_append.mp hb with hb | hb
  · exact hl dec v hb
  cases ev with
  | elect view => exact h.invoked ha.2
  | campaign view => exact h.invoked ha.2
  | log dec view => cases hb
  | enter view => cases hb
  | _ => cases mem_singleton.mp hb

/-- The tasks that a step dispatches have the invariant. -/
theorem fresh {nd' : Node} {out : List SignedBody} (hlater : Later c d w w') (hK : (know c T d w).Le K')
    (hres : ∀ res, (w e.replica d).state.p1.result = some res → res ≠ .wait →
      nd'.state.p1.result = some res) (hout : ∀ b ∈ out, b ∈ nd'.signed)
    (hf : Fresh (c.server e.replica) d (w e.replica d).state e.input out t) : TaskInv c T d w' K' e.replica nd' t where
  message m hm := (h.atHand (hf.message m hm)).mono hlater
  fromMessage := hf.fromMessage
  txn x hx := h.txnAtHand (hf.txn x hx)
  vote res hv := by
    rcases hf.myVote with hmy | hmy
    · rw [hmy] at hv
      cases hv
    rw [hmy, TxnState.lookupP1Decision] at hv
    split at hv
    · cases hv
    · rename_i hwait
      have hne : res ≠ .wait := by rintro rfl; exact hwait hv
      exact ⟨hres res hv hne, hne⟩
  decision dec hdec := by
    rcases hf.myDecision with hmy | hmy
    · rw [hmy] at hdec
      cases hdec
    rw [hmy, TxnState.lookupP2Decision] at hdec
    split at hdec
    · rename_i hp2
      cases hdec
      exact hK.voted _ (h.node.ballots.record hp2)
    · cases hdec
  ownElect v dec ho := mem_filter.mpr ⟨hout _ (hf.ownElect v dec ho), rfl⟩
  invoke hi := h.invoked (hf.invoke hi)

/-- A step keeps the invariant of the replica that makes it. -/
theorem step (hlater : Later c d w w') : NodeInv c T d w' (know c T d w') e.replica
    ((w e.replica d).step (c.server e.replica) d e.input) := by
  have hK : (know c T d w).Le (know c T d w') := know_mono hlater
  have hnode := h.node
  have houtcome := Node.step_outcome (c.server e.replica) d (w e.replica d) e.input
  have hlogger : Run.Reaches (Logger.step (c.server e.replica) d)
      (fun l => Allowed (c.server e.replica) d (w e.replica d).state e.input l.p2) (w e.replica d).logger
      ((w e.replica d).step (c.server e.replica) d e.input).logger :=
    Node.step_refines _ _ fun t ht hv => hnode.views t (Input.task?_mem ht) hv
  have hfrom := act_tasks (c.server e.replica) d (w e.replica d).state e.input fun d' proof occ he =>
    (Event.supply_digest he).trans h.digest
  have hgrow := reaches_grows houtcome
  have hres : ∀ res, (w e.replica d).state.p1.result = some res → res ≠ .wait →
      ((w e.replica d).step (c.server e.replica) d e.input).state.p1.result = some res :=
    fun res hr hw => h.proper.result hr hw
  refine ⟨?_, ?_, ?_, ?_, ?_, ?_, ?_, ?_, ?_, ?_⟩
  · exact (houtcome.invariant (fun hP hj hs => hP.step (h.proper.steady hj) (h.foundedOutcome hj hs) hs)
      hnode.votes).mono hK
  · exact (hlogger.invariant (fun hP ha hs => hP.step (h.foundedLogger ha hs) hs) hnode.ballots).mono hK
  · intro hmode
    have hmoves : ∀ {l : Logger} {ev : LogEvent},
        Allowed (c.server e.replica) d (w e.replica d).state e.input l.p2 ev → ∀ view, ev ≠ .elect view := by
      rintro l ev ha view rfl
      cases ha.1.symm.trans hmode
    refine ((hlogger.invariant (fun hP ha hs =>
      hP.step (not_elected_zero h.tolerant hmode h.inv) (h.foundedLogger ha hs) (hmoves ha) hs)
      (hnode.locks hmode)).mono hK ?_)
    intro hfw
    rw [TxnState.forwardWriteback, or_eq_true] at hfw ⊢
    rcases hfw with hcom | hwb
    · obtain ⟨proof, hproof⟩ := isSome_iff_exists.mp hcom
      exact .inl (isSome_iff_exists.mpr ⟨proof, hgrow.committed proof hproof⟩)
    · obtain ⟨wb, hwb⟩ := isSome_iff_exists.mp hwb
      exact .inr (isSome_iff_exists.mpr ⟨wb, hgrow.writeback wb hwb⟩)
  · intro t ht
    rcases hfrom.tasks t ht with hold | hnew
    · refine (hnode.tasks t hold).mono hlater hK hres fun b hb => ?_
      exact mem_filter.mpr ⟨mem_append_left _ (mem_filter.mp hb).1, (mem_filter.mp hb).2⟩
    · exact h.fresh hlater hK hres (fun b hb => mem_append_right _ hb) hnew
  · intro o ho
    rcases hfrom.oo o ho with hold | hnew
    · exact (hnode.oo o hold).mono hlater
    · exact (h.atHand hnew).mono hlater
  · intro x hx
    rcases hfrom.ongoing x hx with hold | hnew
    · exact hnode.ongoing x hold
    · exact h.txnAtHand hnew
  · intro v dec s hs
    rcases hfrom.sigs v dec s hs with hold | ⟨t, ht, hacc, hc⟩
    · exact (hnode.sigs v dec s hold).mono hlater
    · exact ((h.task ht).counts_sig h.inv h.correct hacc hc).mono hlater
  · intro t ht hv
    rcases hfrom.tasks t ht with hold | hnew
    · exact hnode.views t hold hv
    · exact hnew.clientDriven hv
  · exact hlogger.invariant (fun hP _ hs => hP.step hs) hnode.own
  · exact hlogger.invariant (P := fun l : Logger => ∀ dec v, .electMessage 0 d dec v ∈ l.signed →
      InLogGroup c T d e.replica) (fun hP ha hs => h.member ha hs hP) hnode.member

end

end Handles

theorem clusterInv_init : ClusterInv c T d init := fun _ _ =>
  { votes := VoteInv.init _ _
    ballots := BallotsVoted.init _ _ _
    locks := fun _ => BallotInv.init _ _ _ _
    tasks := fun _ ht => (by cases ht)
    oo := fun _ ho => (by cases ho)
    ongoing := fun _ hx => (by cases hx)
    sigs := nofun
    views := fun _ ht => (by cases ht)
    own := fun _ hb => (by cases hb)
    member := fun _ _ hb => (by cases hb) }

/-- The other replicas have the invariant since knowledge only grows. -/
theorem ClusterInv.step (ht : c.Tolerant) (h32 : ∀ g ∈ T.involvedGroups, g < 2 ^ 32)
    {e : Event} (hinv : ClusterInv c T d w) (hp : w.proper c T d e) (hs : step c w e = some w') :
    ClusterInv c T d w' := by
  have hlater := Later.of_step hp hs
  obtain ⟨hcorrect, hgenuine, rfl⟩ := step_eq hs
  intro r hr
  by_cases hrd : r = e.replica ∧ d = e.digest c.digestOf
  · obtain ⟨rfl, rfl⟩ := hrd
    have hh : Handles c T (e.digest c.digestOf) w e :=
      ⟨ht, h32, hinv, rfl, hcorrect, hgenuine, hp rfl⟩
    have hstep := hh.step hlater
    rw [set_self]
    exact hstep
  · rw [set_of_ne _ _ hrd]
    exact (hinv r hr).mono hlater (know_mono hlater)

/-- Proper runs keep the invariant of the cluster. -/
theorem clusterInv_of_proper (ht : c.Tolerant) (h32 : ∀ g ∈ T.involvedGroups, g < 2 ^ 32) {es : List Event}
    (hm : Run.Meets (step c) (proper c T d) init es) (h : Run.exec (step c) init es = some w) : ClusterInv c T d w :=
  Run.exec_invariant_of_meets (fun hinv hp hs => ClusterInv.step ht h32 hinv hp hs)
    clusterInv_init hm h

end Pequin
