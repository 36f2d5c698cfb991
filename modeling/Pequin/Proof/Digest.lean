import Pequin.Framework.Layout
import Pequin.Model.Digest
import Pequin.Proof.BatchedSigs

/-!
# What a digest binds

What is hashed for a transaction has no marks between its fields. `transactionDigest_binds`: the client
id and the sequence number are bound, and the other hashed fields are once the layout is the same.
`queryDigest_binds`: for a query everything is, as only one of its fields varies in length. A retry is
sent without the command, so a hashed id is not that of the first request (`derived_ids_iff`). The table
writes are sorted before they are hashed, the groups of a query are not (`digest_map_order_iff`).
-/

namespace Pequin

open Format List

theorem length_u64Bytes (x : UInt64) : (u64Bytes x).length = 8 := rfl

theorem u64Bytes_injective : Function.Injective u64Bytes := by
  intro x y h
  have hx := x.toNat_lt
  have hy := y.toNat_lt
  have hbytes : (u64Bytes x).map UInt8.toNat = (u64Bytes y).map UInt8.toNat := by rw [h]
  simp only [u64Bytes, map_cons, map_nil, UInt8.toNat_ofNat', List.cons.injEq, and_true] at hbytes
  exact UInt64.toNat_inj.mp (by omega)

def u64Format : Format UInt8 UInt64 := fixed u64Bytes 8 length_u64Bytes u64Bytes_injective

def timestampFormat : Format UInt8 TimestampMessage :=
  (pair u64Format u64Format).via (fun t => (t.id, t.timestamp)) fun a b h => by
    cases a
    cases b
    cases h
    rfl

namespace Proto

/-! ## The format of a transaction -/

abbrev PredicateContent := Bytes × TimestampMessage × List (List Bytes)

abbrev ReadSetContent := List Read × List Bytes × List PredicateContent

abbrev QueryContent := Bytes × UInt64 × List (UInt64 × (Bytes ⊕ ReadSetContent))

def Predicate.content (pred : Predicate) : PredicateContent := (pred.tableName, pred.tableVersion, pred.instantiations)

def QueryReadSet.content (rs : QueryReadSet) : ReadSetContent :=
  (rs.readSet, rs.deps.map Dep.preparedTxnDigest, rs.readPredicates.map Predicate.content)

def GroupMeta.content (md : GroupMeta) : Bytes ⊕ ReadSetContent :=
  match md.readSetHash with
  | some hash => .inl hash
  | none => .inr md.queryReadSet.content

def QueryMeta.content (query : QueryMeta) : QueryContent :=
  (query.queryId, query.retryVersion, query.groupMeta.map fun md => (md.1, md.2.content))

def readFormat : Format UInt8 Read :=
  (pair string timestampFormat).via (fun r => (r.key, r.readtime)) fun a b h => by
    cases a
    cases b
    cases h
    rfl

def writeFormat : Format UInt8 Write :=
  (pair string string).via (fun w => (w.key, w.value)) fun a b h => by
    cases a
    cases b
    cases h
    rfl

def predicateFormat : Format UInt8 PredicateContent := pair string (pair timestampFormat (list (list string)))

def readSetFormat : Format UInt8 ReadSetContent := pair (list readFormat) (pair (list string) (list predicateFormat))

def queryFormat : Format UInt8 QueryContent :=
  pair string (pair u64Format (list (pair u64Format (either string readSetFormat))))

def boolFormat : Format UInt8 Bool := fixed (fun b => [if b then 1 else 0]) 1 (fun _ => rfl) fun a b h => by
  cases a <;> cases b <;> first | rfl | cases h

def rowFormat : Format UInt8 Row :=
  (pair (option boolFormat) (list string)).via (fun row => (row.deletion, row.columnValues)) fun a b h => by
    cases a
    cases b
    cases h
    rfl

/-- The fields in the order in which they are hashed. -/
abbrev TxnContent := UInt64 × UInt64 × List UInt64 × List Read × List Write × List Bytes × TimestampMessage ×
  List QueryContent × List PredicateContent × List (Bytes × List Row)

def txnFormat : Format UInt8 TxnContent :=
  pair u64Format <| pair u64Format <| pair (list u64Format) <| pair (list readFormat) <| pair (list writeFormat) <|
    pair (list string) <| pair timestampFormat <| pair (list queryFormat) <| pair (list predicateFormat) <|
      list (pair string (list rowFormat))

def Txn.content (txn : Txn) : TxnContent :=
  (txn.clientId, txn.clientSeqNum, txn.involvedGroups, txn.readSet, txn.writeSet,
    txn.deps.map Dep.preparedTxnDigest, txn.timestamp, txn.querySet.map QueryMeta.content,
    txn.readPredicates.map Predicate.content, sortTables txn.tableWrites)

/-! ## The code writes in this format -/

theorem list_string_encode (strings : List Bytes) : (list string).encode strings = strings.flatten :=
  flatMap_id

theorem list_encode_map {α β : Type} (F : Format UInt8 β) (bytes : α → Bytes) {f : α → β}
    (h : ∀ a, F.encode (f a) = bytes a) (l : List α) : (list F).encode (l.map f) = l.flatMap bytes := by
  show (l.map f).flatMap F.encode = l.flatMap bytes
  rw [flatMap_map]
  exact congrArg (l.flatMap ·) (funext h)

theorem predicate_encode (pred : Predicate) : predicateFormat.encode pred.content = pred.bytes := by
  show pred.tableName ++ (pred.tableVersion.bytes ++ pred.instantiations.flatMap (list string).encode) = _
  rw [Predicate.bytes, append_assoc, funext list_string_encode]

theorem groupMeta_encode (md : GroupMeta) : (either string readSetFormat).encode md.content = md.bytes := by
  obtain ⟨hash, rs⟩ := md
  cases hash with
  | some hash => rfl
  | none =>
    show (list readFormat).encode rs.readSet ++ ((list string).encode (rs.deps.map Dep.preparedTxnDigest) ++
        (list predicateFormat).encode (rs.readPredicates.map Predicate.content)) = _
    rw [list_encode_map _ _ predicate_encode, list_encode_map string Dep.bytes fun _ => rfl, GroupMeta.bytes,
      append_assoc]
    rfl

theorem query_encode (query : QueryMeta) : queryFormat.encode query.content = query.bytes := by
  show query.queryId ++ (u64Bytes query.retryVersion ++ (list (pair u64Format (either string readSetFormat))).encode
      (query.groupMeta.map fun md => (md.1, md.2.content))) = _
  rw [list_encode_map _ fun md => u64Bytes md.1 ++ md.2.bytes, QueryMeta.bytes, append_assoc]
  intro md
  show u64Bytes md.1 ++ (either string readSetFormat).encode md.2.content = _
  rw [groupMeta_encode]

theorem row_encode (row : Row) : rowFormat.encode row = row.bytes := by
  show (option boolFormat).encode row.deletion ++ (list string).encode row.columnValues = _
  rw [list_string_encode, Row.bytes]
  cases row.deletion <;> rfl

theorem txn_encode (txn : Txn) : txnFormat.encode txn.content = txn.bytes := by
  have htables : (list (pair string (list rowFormat))).encode (sortTables txn.tableWrites) =
      (sortTables txn.tableWrites).flatMap fun table => table.1 ++ table.2.flatMap Row.bytes := by
    show (sortTables txn.tableWrites).flatMap (fun table => table.1 ++ table.2.flatMap rowFormat.encode) = _
    rw [funext row_encode]
  show u64Bytes txn.clientId ++ (u64Bytes txn.clientSeqNum ++ (txn.involvedGroups.flatMap u64Bytes ++
    (txn.readSet.flatMap Read.bytes ++ (txn.writeSet.flatMap Write.bytes ++
      ((list string).encode (txn.deps.map Dep.preparedTxnDigest) ++ (txn.timestamp.bytes ++
        ((list queryFormat).encode (txn.querySet.map QueryMeta.content) ++
          ((list predicateFormat).encode (txn.readPredicates.map Predicate.content) ++
            (list (pair string (list rowFormat))).encode (sortTables txn.tableWrites))))))))) = _
  rw [list_encode_map _ _ query_encode, list_encode_map _ _ predicate_encode, htables,
    list_encode_map string Dep.bytes fun _ => rfl, Txn.bytes]
  simp only [append_assoc]

/-! ## Binding -/

/-- The layout of what is hashed: numbers of entries, lengths of strings, and which optional fields are there. -/
def Txn.layout (txn : Txn) : txnFormat.Layout := txnFormat.layout txn.content

/-- Two transactions agree on what is hashed. -/
structure SameContent (A B : Txn) : Prop where
  timestamp : A.timestamp = B.timestamp
  involvedGroups : A.involvedGroups = B.involvedGroups
  readSet : A.readSet = B.readSet
  writeSet : A.writeSet = B.writeSet
  deps : A.deps.map Dep.preparedTxnDigest = B.deps.map Dep.preparedTxnDigest
  querySet : A.querySet.map QueryMeta.content = B.querySet.map QueryMeta.content
  readPredicates : A.readPredicates.map Predicate.content = B.readPredicates.map Predicate.content
  tableWrites : sortTables A.tableWrites = sortTables B.tableWrites

theorem sameContent_of_content {A B : Txn} (h : A.content = B.content) : SameContent A B := by
  simp only [Txn.content, Prod.mk.injEq] at h
  obtain ⟨-, -, hgroups, hreads, hwrites, hdeps, htime, hqueries, hpreds, htables⟩ := h
  exact ⟨htime, hgroups, hreads, hwrites, hdeps, hqueries, hpreds, htables⟩

theorem client_of_bytes {A B : Txn} (h : A.bytes = B.bytes) :
    A.clientId = B.clientId ∧ A.clientSeqNum = B.clientSeqNum := by
  rw [← txn_encode, ← txn_encode] at h
  obtain ⟨hid, hrest⟩ := append_inj h (length_u64Bytes _)
  obtain ⟨hseq, -⟩ := append_inj hrest (length_u64Bytes _)
  exact ⟨u64Bytes_injective hid, u64Bytes_injective hseq⟩

end Proto

section Digests

open Proto

variable {H : HashFn} {A B : Txn}

/-- Transactions with one digest have one client and sequence number, and if their layout is the same, all that is
hashed. -/
theorem transactionDigest_binds (hinj : H.hash A.bytes = H.hash B.bytes → A.bytes = B.bytes)
    (h : transactionDigest H true A = transactionDigest H true B) :
    A.clientId = B.clientId ∧ A.clientSeqNum = B.clientSeqNum ∧ (A.layout = B.layout → SameContent A B) := by
  have hbytes : A.bytes = B.bytes := hinj h
  obtain ⟨hid, hseq⟩ := client_of_bytes hbytes
  refine ⟨hid, hseq, fun hlayout => sameContent_of_content (txnFormat.encode_inj hlayout ?_)⟩
  rw [txn_encode, txn_encode, hbytes]

def writeTxn (key value : Bytes) : Txn :=
  { clientId := 1, clientSeqNum := 2, writeSet := [⟨key, value⟩], timestamp := ⟨3, 1⟩ }

def predicateTxn (instance₁ : Bytes) (group : UInt64) : Txn where
  clientId := 1
  clientSeqNum := 2
  readSet := [⟨[97], ⟨1, 2⟩⟩]
  writeSet := [⟨[98], [99]⟩]
  deps := [⟨[4], group⟩]
  timestamp := ⟨3, 1⟩
  readPredicates := [⟨[116], ⟨3, 1⟩, [[[97], [98]]], [instance₁]⟩]

/-- Key and value of a write run together; instances of predicates and groups of dependencies are not hashed. -/
theorem digest_of_different_txns :
    (∀ H, transactionDigest H true (writeTxn [97, 98] [99]) = transactionDigest H true (writeTxn [97] [98, 99])) ∧
    (writeTxn [97, 98] [99]).writeSet ≠ (writeTxn [97] [98, 99]).writeSet ∧
    (∀ H, transactionDigest H true (predicateTxn [49] 0) = transactionDigest H true (predicateTxn [50] 1)) ∧
    (predicateTxn [49] 0).readPredicates ≠ (predicateTxn [50] 1).readPredicates ∧
    (predicateTxn [49] 0).deps ≠ (predicateTxn [50] 1).deps :=
  ⟨fun _ => rfl, by decide, fun _ => rfl, by decide, by decide⟩

theorem transactionDigest_binds_predicates : SameContent (predicateTxn [49] 0) (predicateTxn [50] 1) := by
  have hdigest : transactionDigest (tableHash []) true (predicateTxn [49] 0) =
      transactionDigest (tableHash []) true (predicateTxn [50] 1) := rfl
  have hbytes : (predicateTxn [49] 0).bytes = (predicateTxn [50] 1).bytes := rfl
  obtain ⟨-, -, hbound⟩ := transactionDigest_binds (fun _ => hbytes) hdigest
  exact hbound rfl

def Proto.QueryReadSet.hashed (rs : QueryReadSet) : List Read × List (List (List Bytes)) :=
  (rs.readSet, rs.readPredicates.map Predicate.instantiations)

def cachedFormat : Format UInt8 (List Read × List (List (List Bytes))) :=
  pair (list readFormat) (list (list (list string)))

theorem cached_encode (rs : QueryReadSet) : cachedFormat.encode rs.hashed = rs.bytes := by
  show rs.readSet.flatMap Read.bytes ++ (list (list (list string))).encode (rs.readPredicates.map _) = _
  rw [list_encode_map _ fun pred : Predicate => pred.instantiations.flatMap List.flatten, QueryReadSet.bytes]
  exact fun pred => congrArg (pred.instantiations.flatMap ·) (funext list_string_encode)

/-- Two read sets with one hash have the same reads and column values exactly if they have the same layout. -/
theorem readSetHash_binds_iff {rs rs' : QueryReadSet} (hinj : H.hash rs.bytes = H.hash rs'.bytes → rs.bytes = rs'.bytes)
    (h : generateReadSetSingleHash H rs = generateReadSetSingleHash H rs') :
    rs.hashed = rs'.hashed ↔ cachedFormat.layout rs.hashed = cachedFormat.layout rs'.hashed := by
  refine ⟨congrArg cachedFormat.layout, fun hlayout => cachedFormat.encode_inj hlayout ?_⟩
  rw [cached_encode, cached_encode]
  exact hinj h

/-- Two reads, and one whose key is what is hashed of the first and the key of the second. -/
def twoReads : QueryReadSet := { readSet := [⟨[97], ⟨1, 2⟩⟩, ⟨[98], ⟨3, 4⟩⟩] }

def longKeyRead : QueryReadSet := { readSet := [⟨97 :: (TimestampMessage.bytes ⟨1, 2⟩ ++ [98]), ⟨3, 4⟩⟩] }

theorem readSetHash_of_different_reads :
    (∀ H, generateReadSetSingleHash H twoReads = generateReadSetSingleHash H longKeyRead) ∧
    twoReads.readSet.Pairwise (·.key ≤ ·.key) ∧ longKeyRead.readSet.Pairwise (·.key ≤ ·.key) ∧
    twoReads.readSet ≠ longKeyRead.readSet :=
  ⟨fun _ => rfl, by decide, by decide, by decide⟩

def predicateReads (instance₁ : Bytes) : QueryReadSet :=
  { twoReads with readPredicates := (predicateTxn instance₁ 0).readPredicates }

theorem readSetHash_binds_iff_predicates : (predicateReads [49]).hashed = (predicateReads [50]).hashed :=
  (readSetHash_binds_iff (H := tableHash []) (fun _ => rfl) rfl).mpr rfl

theorem queryDigest_binds {q r : Query} (hinj : H.hash q.bytes = H.hash r.bytes → q.bytes = r.bytes)
    (h : queryDigest H true q = queryDigest H true r) : q = r := by
  have hbytes : q.bytes = r.bytes := hinj h
  -- the command is as long as what is left of the string
  have hlen : q.queryCmd.length = r.queryCmd.length := by
    have hlen := congrArg List.length hbytes
    simp only [Query.bytes, TimestampMessage.bytes, length_append, length_u64Bytes] at hlen
    omega
  obtain ⟨hbytes, hmanager⟩ := append_inj' hbytes rfl
  obtain ⟨hbytes, htime⟩ := append_inj' hbytes rfl
  obtain ⟨hbytes, hcmd⟩ := append_inj' hbytes hlen
  obtain ⟨hid, hseq⟩ := append_inj hbytes rfl
  obtain ⟨htsId, hts⟩ := append_inj htime rfl
  obtain ⟨rid, rseq, rcmd, ⟨rts, rtsId⟩, rmgr⟩ := r
  cases u64Bytes_injective hid
  cases u64Bytes_injective hseq
  cases u64Bytes_injective htsId
  cases u64Bytes_injective hts
  cases u64Bytes_injective hmanager
  cases hcmd
  rfl

/-! ## The ids of a query -/

namespace IssuedQuery

variable {hashed : Bool} {q r : Query} {m n : Nat}

def retried (H : HashFn) (hashed : Bool) (q : Query) (n : Nat) : IssuedQuery := retryQuery^[n] (query H hashed q)

def hashedStrings (H : HashFn) (q : Query) : Set Bytes :=
  { b | ∃ n, b = (retried H true q n).queryMsg.bytes ∨
    b = (retried H true q n).derivedId H true ++ u64Bytes (retried H true q n).retryVersion }

theorem retried_spec (n : Nat) : (retried H hashed q n).queryId = Pequin.queryDigest H hashed q ∧
    (retried H hashed q n).queryDigest = Pequin.queryDigest H hashed q ∧
    ((retried H hashed q n).queryMsg = q ∨ (retried H hashed q n).queryMsg = { q with queryCmd := [] }) := by
  induction n with
  | zero => exact ⟨rfl, rfl, .inl rfl⟩
  | succ n ih =>
    rw [retried, Function.iterate_succ_apply']
    obtain ⟨hid, hdigest, hmsg⟩ := ih
    refine ⟨hid, hdigest, .inr ?_⟩
    show { (retried H hashed q n).queryMsg with queryCmd := [] } = _
    rcases hmsg with hmsg | hmsg <;> rw [hmsg]

theorem retried_client (H : HashFn) (hashed : Bool) (q : Query) (n : Nat) :
    (retried H hashed q n).queryMsg.clientId = q.clientId ∧
    (retried H hashed q n).queryMsg.querySeqNum = q.querySeqNum := by
  obtain ⟨-, -, hmsg | hmsg⟩ := retried_spec n <;> rw [hmsg] <;> exact ⟨rfl, rfl⟩

theorem client_of_derivedId (hinj : hashed = true → Set.InjOn H.hash (hashedStrings H q ∪ hashedStrings H r))
    (h : (retried H hashed q m).derivedId H hashed = (retried H hashed r n).derivedId H hashed) :
    q.clientId = r.clientId ∧ q.querySeqNum = r.querySeqNum := by
  obtain ⟨hqid, hqseq⟩ := retried_client H hashed q m
  obtain ⟨hrid, hrseq⟩ := retried_client H hashed r n
  rw [← hqid, ← hqseq, ← hrid, ← hrseq]
  cases hashed with
  | true =>
    rw [queryDigest_binds (hinj rfl (.inl ⟨m, .inl rfl⟩) (.inr ⟨n, .inl rfl⟩)) h]
    exact ⟨rfl, rfl⟩
  | false =>
    obtain ⟨hid, hseq⟩ := append_inj h rfl
    exact ⟨u64Bytes_injective hid, u64Bytes_injective hseq⟩

theorem derivedId_of_retryId (hinj : hashed = true → Set.InjOn H.hash (hashedStrings H q ∪ hashedStrings H r))
    (h : (retried H hashed q m).retryId H hashed = (retried H hashed r n).retryId H hashed) :
    (retried H hashed q m).derivedId H hashed = (retried H hashed r n).derivedId H hashed := by
  cases hashed with
  | true => exact (append_inj' (hinj rfl (.inl ⟨m, .inr rfl⟩) (.inr ⟨n, .inr rfl⟩) h) rfl).1
  | false => exact (append_inj' h rfl).1

/-- Replicas derive the stored id exactly if ids are plain or the command is empty. Different queries share no id. -/
theorem derived_ids_iff (hinj : hashed = true → Set.InjOn H.hash (hashedStrings H q ∪ hashedStrings H r)) :
    ((∀ n, (retried H hashed q n).derivedId H hashed = (retried H hashed q n).queryId ∧
        (retried H hashed q n).derivedId H hashed = (retried H hashed q n).queryDigest) ↔
      hashed = false ∨ q.queryCmd = []) ∧
    ((q.clientId, q.querySeqNum) ≠ (r.clientId, r.querySeqNum) → ∀ m n,
      (retried H hashed q m).derivedId H hashed ≠ (retried H hashed r n).derivedId H hashed ∧
      (retried H hashed q m).retryId H hashed ≠ (retried H hashed r n).retryId H hashed) := by
  refine ⟨⟨fun h => ?_, fun h n => ?_⟩, fun hne m n => ?_⟩
  · cases hashed with
    | false => exact .inl rfl
    | true =>
      have hmsg := queryDigest_binds (hinj rfl (.inl ⟨1, .inl rfl⟩) (.inl ⟨0, .inl rfl⟩)) (h 1).1
      exact .inr (congrArg Query.queryCmd hmsg).symm
  · obtain ⟨hid, hdigest, hmsg⟩ := retried_spec (H := H) (q := q) n
    have hderived : (retried H hashed q n).derivedId H hashed = Pequin.queryDigest H hashed q := by
      rw [derivedId]
      rcases hmsg with hmsg | hmsg <;> rw [hmsg]
      rcases h with rfl | hcmd
      · rfl
      · rw [← hcmd]
    exact ⟨hderived.trans hid.symm, hderived.trans hdigest.symm⟩
  · have hids : (retried H hashed q m).derivedId H hashed ≠ (retried H hashed r n).derivedId H hashed := fun h =>
      hne (Prod.ext (client_of_derivedId hinj h).1 (client_of_derivedId hinj h).2)
    exact ⟨hids, fun h => hids (derivedId_of_retryId hinj h)⟩

def selectQuery (clientId : UInt64) : Query := ⟨clientId, 1, [83], ⟨3, clientId⟩, 0⟩

/-- From the retry of a query with a command another id is derived than the one in the transaction. -/
theorem retry_changes_id : (retried (tableHash [(selectQuery 1).bytes]) true (selectQuery 1) 1).derivedId
      (tableHash [(selectQuery 1).bytes]) true ≠
    (retried (tableHash [(selectQuery 1).bytes]) true (selectQuery 1) 1).queryId := by
  decide

/-- Keeps the first byte, the ninth one, and what is after the first 32. -/
def pickHash : HashFn where
  hash x := x.getD 0 0 :: x.getD 8 0 :: List.ofFn fun i : Fin 30 => x.getD (32 + i) 0
  length_hash x := by simp [hashSize]

def emptyQuery (clientId : UInt64) : Query := ⟨clientId, 1, [], ⟨3, clientId⟩, 0⟩

theorem hashedStrings_emptyQuery {c : UInt64} {b : Bytes} (h : b ∈ hashedStrings H (emptyQuery c)) :
    b = (emptyQuery c).bytes ∨ ∃ v, b = H.hash (emptyQuery c).bytes ++ u64Bytes v := by
  obtain ⟨n, h⟩ := h
  have hmsg : (retried H true (emptyQuery c) n).queryMsg = emptyQuery c := (retried_spec n).2.2.elim id id
  rcases h with rfl | rfl
  · exact .inl (by rw [hmsg])
  · exact .inr ⟨_, by rw [derivedId, hmsg]; rfl⟩

theorem pickHash_injOn : Set.InjOn pickHash.hash
    (hashedStrings pickHash (emptyQuery 1) ∪ hashedStrings pickHash (emptyQuery 2)) := by
  -- the first byte tells the clients apart, the ninth one a query from an id with a version
  have hcases : ∀ b ∈ hashedStrings pickHash (emptyQuery 1) ∪ hashedStrings pickHash (emptyQuery 2), ∃ c ∈ [1, 2],
      b = (emptyQuery c).bytes ∨ ∃ v, b = pickHash.hash (emptyQuery c).bytes ++ u64Bytes v := by
    rintro b (hb | hb)
    · exact ⟨1, by simp, hashedStrings_emptyQuery hb⟩
    · exact ⟨2, by simp, hashedStrings_emptyQuery hb⟩
  have hquery : ∀ c ∈ ([1, 2] : List UInt64), pickHash.hash (emptyQuery c).bytes =
      UInt8.ofNat c.toNat :: 1 :: replicate 30 0 := by
    refine forall_mem_cons.mpr ⟨?_, forall_mem_singleton.mpr ?_⟩ <;> decide
  have hversion : ∀ c ∈ ([1, 2] : List UInt64), ∀ v, pickHash.hash (pickHash.hash (emptyQuery c).bytes ++ u64Bytes v) =
      UInt8.ofNat c.toNat :: 0 :: (u64Bytes v ++ replicate 22 0) := by
    intro c hc v
    rw [hquery c hc]
    rfl
  have hclient : ∀ c ∈ ([1, 2] : List UInt64), ∀ c' ∈ ([1, 2] : List UInt64),
      UInt8.ofNat c.toNat = UInt8.ofNat c'.toNat → c = c' := by
    refine forall_mem_cons.mpr ⟨?_, forall_mem_singleton.mpr ?_⟩ <;>
      refine forall_mem_cons.mpr ⟨?_, forall_mem_singleton.mpr ?_⟩ <;> decide
  intro a ha b hb heq
  obtain ⟨c, hc, rfl | ⟨v, rfl⟩⟩ := hcases a ha <;> obtain ⟨c', hc', rfl | ⟨v', rfl⟩⟩ := hcases b hb
  · rw [hquery c hc, hquery c' hc', cons.injEq] at heq
    rw [hclient c hc c' hc' heq.1]
  · rw [hquery c hc, hversion c' hc', cons.injEq, cons.injEq] at heq
    exact absurd heq.2.1 (by decide)
  · rw [hversion c hc, hquery c' hc', cons.injEq, cons.injEq] at heq
    exact absurd heq.2.1 (by decide)
  · rw [hversion c hc, hversion c' hc', cons.injEq, cons.injEq] at heq
    rw [hclient c hc c' hc' heq.1, u64Bytes_injective (append_cancel_right heq.2.2)]

theorem derived_ids_iff_hashed : (∀ n, (retried pickHash true (emptyQuery 1) n).derivedId pickHash true =
      (retried pickHash true (emptyQuery 1) n).queryId) ∧
    (retried pickHash true (emptyQuery 1) 2).retryId pickHash true ≠
      (retried pickHash true (emptyQuery 2) 2).retryId pickHash true := by
  obtain ⟨hstored, hdistinct⟩ := derived_ids_iff fun _ => pickHash_injOn
  exact ⟨fun n => (hstored.2 (.inr rfl) n).1, (hdistinct (by decide) 2 2).2⟩

end IssuedQuery

/-! ## The order of maps -/

variable {hashed : Bool}

/-- The same query, up to the order of its groups. -/
def Proto.QueryMeta.Same (p q : QueryMeta) : Prop := ∃ md, p.groupMeta ~ md ∧ q = { p with groupMeta := md }

/-- The same transaction, up to the order in which its maps are iterated. -/
def Proto.Txn.Same (A B : Txn) : Prop :=
  ∃ queries tables, Forall₂ QueryMeta.Same A.querySet queries ∧ A.tableWrites ~ tables ∧
    B = { A with querySet := queries, tableWrites := tables }

/-- The keys of the maps are distinct. -/
def Proto.Txn.DistinctKeys (A : Txn) : Prop :=
  (∀ q ∈ A.querySet, (q.groupMeta.map Prod.fst).Nodup) ∧ (A.tableWrites.map Prod.fst).Nodup

theorem sortTables_eq_of_perm {l l' : List (Bytes × List Row)} (hk : (l.map Prod.fst).Nodup) (h : l ~ l') :
    sortTables l = sortTables l' := by
  have hperm : sortTables l ~ l := perm_insertionSort _ l
  have hperm' : sortTables l' ~ l := (perm_insertionSort _ l').trans h.symm
  refine (hperm.trans hperm'.symm).eq_of_pairwise (fun a b ha hb hab hba => ?_) (pairwise_insertionSort _ l)
    (pairwise_insertionSort _ l')
  exact inj_on_of_nodup_map hk (hperm.mem_iff.mp ha) (hperm'.mem_iff.mp hb) (List.le_antisymm hab hba)

theorem eq_of_forall₂_same {l l' : List QueryMeta} (h : Forall₂ QueryMeta.Same l l')
    (hone : ∀ q ∈ l, q.groupMeta.length ≤ 1) : l = l' := by
  induction h with
  | nil => rfl
  | @cons p q l l' hpq _ ih =>
    obtain ⟨md, hmd, rfl⟩ := hpq
    have heq : p.groupMeta = md := by
      match hp : p.groupMeta, hone p mem_cons_self with
      | [], _ => exact (nil_perm.mp (hp ▸ hmd)).symm
      | [x], _ => exact singleton_perm.mp (hp ▸ hmd)
    rw [← heq, ih fun q hq => hone q (mem_cons_of_mem p hq)]

theorem Proto.Txn.Same.bytes_eq (h : A.Same B) (hk : A.DistinctKeys)
    (hone : ∀ q ∈ A.querySet, q.groupMeta.length ≤ 1) : A.bytes = B.bytes := by
  obtain ⟨queries, tables, hqueries, htables, rfl⟩ := h
  rw [Txn.bytes, Txn.bytes, eq_of_forall₂_same hqueries hone, sortTables_eq_of_perm hk.2 htables]

/-- The order of the maps does not matter exactly if the digest is not hashed, or no query has metadata of two groups.
-/
theorem digest_map_order_iff (hk : A.DistinctKeys)
    (hinj : hashed = true → ∀ B, A.Same B → H.hash A.bytes = H.hash B.bytes → A.bytes = B.bytes) :
    (∀ B, A.Same B → transactionDigest H hashed A = transactionDigest H hashed B) ↔
      (hashed = true → ∀ q ∈ A.querySet, q.groupMeta.length ≤ 1) := by
  constructor
  · rintro h rfl q hq
    by_contra! hlen
    obtain ⟨pre, post, hqs⟩ := append_of_mem hq
    match hmd : q.groupMeta, hlen with
    | x :: y :: rest, _ =>
      -- the first two groups in the other order
      have hrefl (l : List QueryMeta) : Forall₂ QueryMeta.Same l l := forall₂_same.mpr fun p _ => ⟨_, .refl _, rfl⟩
      have hswap : q.Same { q with groupMeta := y :: x :: rest } := ⟨_, hmd ▸ .swap y x rest, rfl⟩
      have hsame : A.Same { A with querySet := pre ++ { q with groupMeta := y :: x :: rest } :: post } :=
        ⟨_, _, hqs ▸ rel_append (hrefl pre) (.cons hswap (hrefl post)), .refl _, rfl⟩
      have hbytes := hinj rfl _ hsame (h _ hsame)
      simp only [Txn.bytes, hqs, flatMap_append, flatMap_cons, QueryMeta.bytes, hmd, append_assoc,
        append_cancel_left_eq] at hbytes
      have hgroup := u64Bytes_injective (append_inj hbytes rfl).1
      have hnodup := hk.1 q hq
      simp [hmd, hgroup] at hnodup
  · intro hone B hsame
    cases hashed with
    | true => exact congrArg H.hash (hsame.bytes_eq hk (hone rfl))
    | false =>
      obtain ⟨_, _, _, _, rfl⟩ := hsame
      rfl

def twoTables (first second : Bytes) : Txn := { writeTxn [] [] with tableWrites := [(first, []), (second, [])] }

theorem digest_map_order_iff_tables : transactionDigest (tableHash []) true (twoTables [1] [2]) =
    transactionDigest (tableHash []) true (twoTables [2] [1]) := by
  have hk : (twoTables [1] [2]).DistinctKeys := ⟨by decide, by decide⟩
  refine (digest_map_order_iff hk fun _ B h _ => h.bytes_eq hk (by decide)).mpr (fun _ => by decide) _ ?_
  exact ⟨_, _, .nil, .swap _ _ [], rfl⟩

def twoGroupQuery (first second : UInt64) : Txn :=
  { writeTxn [] [] with querySet := [⟨[1], 0, [(first, ⟨some [], {}⟩), (second, ⟨some [], {}⟩)]⟩] }

theorem digest_of_two_orders : (twoGroupQuery 0 1).Same (twoGroupQuery 1 0) ∧
    transactionDigest (tableHash [(twoGroupQuery 0 1).bytes]) true (twoGroupQuery 0 1) ≠
      transactionDigest (tableHash [(twoGroupQuery 0 1).bytes]) true (twoGroupQuery 1 0) :=
  ⟨⟨_, _, .cons ⟨_, .swap _ _ [], rfl⟩ .nil, .nil, rfl⟩, by decide⟩

end Digests

end Pequin
