import ZkChat.Server.Removal
import ZkChat.Server.Semaphore

set_option autoImplicit false

/-! # Removed members as indexes

`removeUsersByIndexes` is called by both synchronisers, and its parameter is declared as a list of
numbers. InterRep passes numbers. What Semaphore passes are the objects that
`getRemovedMembersForGroup` builds, and the look-up casts whatever it gets to the type of the path
`key.indexInGroup`. `removeUsersByValues` is the function with that cast in it; on numbers it is
`removeUsersByIndexes` and on objects it is `removeUsersByObjects`. So a list of members that has a
zero is never processed (`removesZeros_iff`). -/

namespace ZkChat

open Prog UserService

/-- What arrives as an index. -/
inductive IndexValue where
  | number (index : ℤ)
  | object (member : IGroupMember)
deriving DecidableEq

/-- The cast to a number path; `Number` of an object is `NaN`. -/
def Mongoose.castNumber : IndexValue → Except Exn ℤ
  | .number index => .ok index
  | .object _ => .error .castError

namespace UserService

variable (poseidon : List ℤ → ℤ) (config : IZKServerConfig)

/-- The loop of `removeUsersByIndexes`. -/
def removeEachValue (groupId : String) : List IndexValue → Server String
  | [] => pure "Done"
  | value :: values => do
      let index ← Prog.ofExcept (Mongoose.castNumber value)
      match ← MerkleTreeNode.findLeafByGroupIdAndIndexInGroup groupId index with
      | none => throw (.error "The node with the given index does not exist")
      | some node =>
          updateUser poseidon config node.cur.hash
          removeEachValue groupId values

def removeUsersByValues (values : List IndexValue) (groupId : String) : Server String :=
  if values.length = 0 then pure ""
  else do
    let zeros ← MerkleTreeZero.findZeros
    if zeros.length = 0 then throw (.text "The zero hashes have not yet been created")
    else removeEachValue poseidon config groupId values

theorem removeEachValue_number (groupId : String) (indexes : List ℤ) :
    removeEachValue poseidon config groupId (indexes.map .number)
      = removeEach poseidon config groupId indexes := by
  induction indexes with
  | nil => rfl
  | cons index indexes ih =>
      simp only [List.map_cons, removeEachValue, removeEach, ih]
      rfl

/-- InterRep's calls. -/
theorem removeUsersByValues_number (indexes : List ℤ) (groupId : String) :
    removeUsersByValues poseidon config (indexes.map .number) groupId
      = removeUsersByIndexes poseidon config indexes groupId := by
  simp only [removeUsersByValues, removeUsersByIndexes, List.length_map, removeEachValue_number]

/-- Semaphore's calls. -/
theorem removeUsersByValues_object (members : List IGroupMember) (groupId : String) :
    removeUsersByValues poseidon config (members.map .object) groupId
      = removeUsersByObjects members := by
  unfold removeUsersByValues removeUsersByObjects
  rw [List.length_map]
  split
  · rfl
  · next hne =>
      obtain ⟨member, members, rfl⟩ := List.exists_cons_of_length_pos (Nat.pos_of_ne_zero hne)
      rfl

end UserService

open SemaphoreFunctions

variable (poseidon : List ℤ → ℤ) (config : IZKServerConfig)

/-- `removeUsersByIndexes(getRemovedMembersForGroup(url, id), id)`, where the request for the members
    is answered with the list `L`. -/
def removeRemovedMembers (L : List String) (id : String) : Server String :=
  removeUsersByValues poseidon config ((getRemovedMembersForGroup (some L)).map .object) id

/-- The call returns, the leaves of the group whose position in the list is zero are cleared, and
    all other leaves are as they were. -/
def RemovesZeros (L : List String) (id : String) (db : Db) : Prop :=
  (∃ text, ((removeRemovedMembers poseidon config L id).run db).1 = .ok text) ∧
  ((removeRemovedMembers poseidon config L id).exec db).leafRows
    = db.leafRows.map fun row =>
        if row.1.groupId = id ∧
            ∃ i ∈ List.range L.length, L[i]? = some zeroText ∧ row.1.indexInGroup = (i : ℤ) then
          (row.1, Js.bigIntToString config.zeroValue)
        else row

/-- Every entry of the list has a leaf, and no text but the zero value's stands in two leaves. -/
structure Listed (L : List String) (id : String) (db : Db) : Prop where
  members : ∀ i < L.length, db.HasMember id i
  distinct : (db.leafRows.filter (·.2 ≠ zeroText)).Pairwise fun row row' => row.2 ≠ row'.2

variable {poseidon config} {L : List String} {id : String} {db : Db}

theorem getRemovedMembersForGroup_eq_nil :
    getRemovedMembersForGroup (some L) = [] ↔ zeroText ∉ L := by
  simp only [getRemovedMembersForGroup, indexed, List.map_eq_nil_iff, List.zipIdx_eq_nil_iff,
    List.filter_eq_nil_iff, decide_eq_true_eq]
  exact ⟨fun h hmem => h _ hmem rfl, fun h text hmem heq => h (by rwa [zeroText, ← heq])⟩

variable (poseidon config id db) in
theorem run_removeRemovedMembers_of_notMem (h : zeroText ∉ L) :
    (removeRemovedMembers poseidon config L id).run db = (.ok "", db) := by
  rw [removeRemovedMembers, getRemovedMembersForGroup_eq_nil.mpr h]
  rfl

variable (poseidon config id db) in
theorem run_removeRemovedMembers_of_mem (h : zeroText ∈ L) :
    ∃ e, (removeRemovedMembers poseidon config L id).run db = (.error e, db) := by
  have hne : getRemovedMembersForGroup (some L) ≠ [] :=
    fun hnil => getRemovedMembersForGroup_eq_nil.mp hnil h
  rw [removeRemovedMembers, removeUsersByValues_object, removeUsersByObjects,
    if_neg (by simpa using hne), MerkleTreeZero.findZeros, run_query_bind]
  split
  · exact ⟨_, rfl⟩
  · exact ⟨_, rfl⟩

/-- The members that were removed are removed exactly when there are none. -/
theorem removesZeros_iff (poseidon : List ℤ → ℤ) (config : IZKServerConfig) (L : List String)
    (id : String) (db : Db) : RemovesZeros poseidon config L id db ↔ zeroText ∉ L := by
  constructor
  · rintro ⟨⟨text, htext⟩, -⟩ hmem
    obtain ⟨e, he⟩ := run_removeRemovedMembers_of_mem poseidon config id db hmem
    rw [he] at htext
    cases htext
  · intro hnot
    have hrun := run_removeRemovedMembers_of_notMem poseidon config id db hnot
    refine ⟨⟨"", by rw [hrun]⟩, ?_⟩
    rw [exec, hrun]
    refine (List.map_id'' (fun row => ?_) _).symm
    rw [if_neg]
    rintro ⟨-, i, -, hi, -⟩
    exact hnot (List.mem_of_getElem? hi)

/-- Had it the indexes that its parameter is declared to have, the call would clear their leaves. -/
theorem leafRows_removeUsersByValues_number {lib : Libraries} (h : db.Operated config)
    {indexes : List ℤ} (hmembers : ∀ i ∈ indexes, db.HasMember id i) :
    ((removeUsersByValues lib.poseidon config (indexes.map .number) id).exec db).leafRows
      = (indexes.map fun i => (id, i)).foldl (leafTable config).clearKey db.leafRows := by
  rw [removeUsersByValues_number]
  exact h.removeUsersByIndexes hmembers

/-- The one member of the group, which a call has brought into the tree, is removed from the
    list. -/
theorem removed_member_is_kept :
    ¬ ∀ (lib : Libraries) (config : IZKServerConfig) (L L' : List String) (s : Store),
      config.zeroValue = DEFAULT_ZERO_VALUE →
      SyncRun lib config (CarefulSync config) L s → ListGrows L L' → Listed L' "1" s.db →
      RemovesZeros lib.poseidon config L' "1" s.db := by
  intro h
  have hjoined : SyncRun Demo.lib Demo.configSemaphore (CarefulSync Demo.configSemaphore)
      ["5"] (Demo.synced ["5"] Demo.started) := by
    refine Demo.syncRun_started.sync (fun _ _ h => by simp at h) rfl
      ⟨Demo.fits (by decide +kernel) (by decide), ?_⟩
    intro i hi row hrow
    cases i with
    | zero => exact absurd hi (by decide +kernel)
    | succ i => simp at hi
  -- a member that is removed becomes a zero in its place
  have hgrows : ListGrows ["5"] [zeroText] := by
    intro i text htext
    cases i with
    | zero => exact Or.inr rfl
    | succ i => simp at htext
  have hrows : (Demo.synced ["5"] Demo.started).db.leafRows
      = [({ groupId := "1", level := 0, indexInGroup := 0, index := 0 }, "5")] := by
    decide +kernel
  have hlisted : Listed [zeroText] "1" (Demo.synced ["5"] Demo.started).db := by
    refine ⟨?_, ?_⟩
    · intro i hi
      obtain rfl : i = 0 := Nat.lt_one_iff.mp hi
      exact ⟨_, hrows ▸ List.mem_singleton_self _, rfl, rfl⟩
    · rw [hrows]
      exact (List.pairwise_singleton _ _).sublist List.filter_sublist
  obtain ⟨⟨text, htext⟩, -⟩ := h _ _ _ _ _ rfl hjoined hgrows hlisted
  obtain ⟨e, he⟩ := run_removeRemovedMembers_of_mem Demo.lib.poseidon Demo.configSemaphore "1"
    (Demo.synced ["5"] Demo.started).db (List.mem_singleton_self zeroText)
  rw [he] at htext
  cases htext

end ZkChat
