import ZkChat.Server.Appendable

set_option autoImplicit false

/-! # Syncing the group with Semaphore

`SemaphoreSynchronizer` fetches the member list of the one supported group and brings the tree up to
it: a longer list than the stored `number_of_leaves` is appended, a list of another length than the
stored `size` has its removed members deleted. The second part never deletes anything. The removed
members arrive as objects instead of indexes, which no lookup accepts; and a list in which a member
was only replaced by the zero value has the length it had before, so that neither part runs.

New members are another matter: they do reach the tree, in their places
(`SyncInv.syncCommitmentsFromSemaphore`). So the tree follows the list exactly as far as the members
that were removed are zero in the tree already. -/

namespace ZkChat

open Prog UserService

/-! ## The requests to Semaphore -/

structure ISemaphoreRepGroupV2 where
  id : String
  name : String
  deep : ℕ

def DEFAULT_ZERO_VALUE : ℤ :=
  312829776796408387545637016147278514583116203736587368460269838669765409292

/-- What the two requests for a group are answered with during one call: the texts in
    `data.members`, or nothing when the request fails. -/
structure SemaphoreAnswers where
  members : String → Option (List String)
  removedMembers : String → Option (List String)

namespace SemaphoreFunctions

/-- Returns only the supported groups. -/
def getAllGroups : List ISemaphoreRepGroupV2 :=
  [{ id := "1", name := "Zuzalu Participants", deep := 16 }]

/-- `.map((member, index) => ({ index, identityCommitment: member }))`, from the index `k` on. -/
def indexed (k : ℕ) (members : List String) : List IGroupMember :=
  (members.zipIdx k).map fun m => ⟨m.2, m.1⟩

/-- Returns an ordered list of members in the group. -/
def getMembersForGroup : Option (List String) → List IGroupMember
  | some members => indexed 0 members
  | none => []

/-- Meant to return the leaf indexes of the removed members. The list is filtered before it is
    indexed, and what is returned are objects. -/
def getRemovedMembersForGroup : Option (List String) → List IGroupMember
  | some members =>
      indexed 0 (members.filter fun member => member = Js.bigIntToString DEFAULT_ZERO_VALUE)
  | none => []

end SemaphoreFunctions

/-! ## The groups -/

structure IGroup where
  group_id : String
  provider : String
  name : String
  size : ℕ
  number_of_leaves : ℕ
deriving DecidableEq

/-- The collections of `Db` and the collection `groups`. -/
structure Store where
  db : Db
  groups : List IGroup := []

/-- A service of `Db`, seen from all the collections. -/
def onDb {α : Type} (p : Server α) : Prog Store Exn α := p.zoom Store.db fun db s => { s with db }

@[simp] theorem run_onDb {α : Type} (p : Server α) (s : Store) :
    (onDb p).run s = ((p.run s.db).1, { s with db := (p.run s.db).2 }) := by
  unfold onDb
  rw [run_zoom]
  all_goals intros; rfl

namespace GroupService

def getGroups : Prog Store Exn (List IGroup) := .query (·.groups)

/-- `group_id` has a unique index. -/
def saveGroup (g : IGroup) : Prog Store Exn Unit := .await fun s =>
  if s.groups.any (·.group_id = g.group_id) then (.error .duplicateKey, s)
  else (.ok (), { s with groups := s.groups ++ [g] })

/-- `Group.findOneAndUpdate({ group_id }, ...)`. -/
def findOneAndUpdate (group_id : String) (update : IGroup → IGroup) : Prog Store Exn Unit :=
  .modify fun s =>
    { s with groups := Collection.modifyFirst (fun g => g.group_id = group_id) update s.groups }

def updateSize (group_id : String) (new_size : ℕ) : Prog Store Exn Unit :=
  findOneAndUpdate group_id fun g => { g with size := new_size }

def updateNumberOfLeaves (group_id : String) (new_number_of_leaves : ℕ) : Prog Store Exn Unit :=
  findOneAndUpdate group_id fun g => { g with number_of_leaves := new_number_of_leaves }

end GroupService

/-! ## `SemaphoreSynchronizer` -/

/-- `removeUsersByIndexes` with what it is given here. The first lookup fails: Mongoose does not cast
    an object to the number that `key.indexInGroup` is. -/
def UserService.removeUsersByObjects (indexes : List IGroupMember) : Server String :=
  if indexes.length = 0 then pure ""
  else do
    let zeros ← MerkleTreeZero.findZeros
    if zeros.length = 0 then throw (.text "The zero hashes have not yet been created")
    else throw .castError

namespace SemaphoreSynchronizer

open SemaphoreFunctions GroupService

section

variable (poseidon : List ℤ → ℤ) (config : IZKServerConfig) (answers : SemaphoreAnswers)

/-- The group does not exist in the database. -/
def addGroup (g : ISemaphoreRepGroupV2) (groupMembers : List IGroupMember)
    (tree_root_changed : Bool) : Prog Store Exn Bool :=
  .tryCatch
    (do
      let _ ← onDb (appendUsers poseidon config groupMembers g.id)
      saveGroup
        { group_id := g.id, provider := "Semaphore", name := g.name, size := groupMembers.length
          number_of_leaves := groupMembers.length }
      pure true)
    fun _ => pure tree_root_changed

/-- Load new members only if there are more leaves than are stored locally. -/
def addMembers (g : ISemaphoreRepGroupV2) (groupInDb : IGroup) (groupMembers : List IGroupMember)
    (tree_root_changed : Bool) : Prog Store Exn Bool :=
  if groupInDb.number_of_leaves < groupMembers.length then
    .tryCatch
      (do
        let _ ← onDb (appendUsers poseidon config groupMembers g.id)
        updateNumberOfLeaves g.id groupMembers.length
        pure true)
      fun _ => pure tree_root_changed
  else pure tree_root_changed

/-- Delete the members that were removed. -/
def removeMembers (g : ISemaphoreRepGroupV2) (groupInDb : IGroup) (numberOfLeaves : ℕ)
    (tree_root_changed : Bool) : Prog Store Exn Bool :=
  if numberOfLeaves ≠ groupInDb.size then
    .tryCatch
      (do
        let _ ← onDb (removeUsersByObjects
          (getRemovedMembersForGroup (answers.removedMembers g.id)))
        updateSize g.id numberOfLeaves
        pure true)
      fun _ => pure tree_root_changed
  else pure tree_root_changed

/-- The body of the loop over the groups. -/
def syncGroup (groupsInDb : List IGroup) (g : ISemaphoreRepGroupV2) (tree_root_changed : Bool) :
    Prog Store Exn Bool := do
  let groupMembers := getMembersForGroup (answers.members g.id)
  match groupsInDb.find? (·.group_id = g.id) with
  | none => addGroup poseidon config g groupMembers tree_root_changed
  | some groupInDb =>
      let tree_root_changed ←
        addMembers poseidon config g groupInDb groupMembers tree_root_changed
      removeMembers answers g groupInDb groupMembers.length tree_root_changed

def syncGroups (groupsInDb : List IGroup) :
    List ISemaphoreRepGroupV2 → Bool → Prog Store Exn Bool
  | [], tree_root_changed => pure tree_root_changed
  | g :: gs, tree_root_changed => do
      let tree_root_changed ← syncGroup poseidon config answers groupsInDb g tree_root_changed
      syncGroups groupsInDb gs tree_root_changed

def syncCommitmentsFromSemaphore : Prog Store Exn Unit := do
  let groupsInDb ← getGroups
  let tree_root_changed ← syncGroups poseidon config answers groupsInDb getAllGroups false
  if tree_root_changed then onDb (publish (.event "TREE_UPDATE")) else pure ()

end

end SemaphoreSynchronizer

/-! ## The list and the tree -/

/-- The zero value, as it stands in the list and in a leaf. -/
def zeroText : String := Js.bigIntToString DEFAULT_ZERO_VALUE

/-- The leaves at a position of a group. -/
def Db.leavesAt (groupId : String) (i : ℕ) (db : Db) : List (IMerkleTreeNodeKey × String) :=
  db.leafRows.filter fun row => row.1.groupId = groupId ∧ row.1.indexInGroup = i

/-- The commitment has a row in `BannedUser`. -/
def Db.Banned (db : Db) (commitment : String) : Prop :=
  ∃ b ∈ db.bannedUsers, b.idCommitment = commitment

/-- The tree follows the list: one leaf a member, which is zero where the member was removed, and
    elsewhere the member, or zero if the member is banned. -/
def Converged (L : List String) (db : Db) : Prop :=
  ∀ (i : ℕ) text, L[i]? = some text → ∃ row, db.leavesAt "1" i = [row] ∧
    if text = zeroText then row.2 = zeroText
    else row.2 = text ∨ row.2 = zeroText ∧ db.Banned text

/-- How the list changes from one call to the next: members are appended, and members are replaced
    in place by the zero value. -/
def ListGrows (L L' : List String) : Prop :=
  ∀ (i : ℕ) text, L[i]? = some text → L'[i]? = some text ∨ L'[i]? = some zeroText

/-- The list is one of commitments, and there is room for it in the tree. -/
structure Fits (config : IZKServerConfig) (L : List String) : Prop where
  levels : 0 < config.merkleTreeLevels
  numeric : ∀ text ∈ L, Js.BigIntText text
  room : L.length ≤ 2 ^ config.merkleTreeLevels

/-- Wherever the list has the zero value, a leaf that is there already is zero. -/
def RemovedAreZero (L : List String) (db : Db) : Prop :=
  ∀ i : ℕ, L[i]? = some zeroText → ∀ row ∈ db.leavesAt "1" i, row.2 = zeroText

/-- What a call is to find. -/
structure CarefulSync (config : IZKServerConfig) (L : List String) (db : Db) : Prop where
  fits : Fits config L
  removed : RemovedAreZero L db

/-- Runs of a server from its start, with the list that the last call saw. Every call finds
    its list grown, gets the members it asks for, and satisfies `ok`. Chat messages, and the bans
    they lead to, may come at any time. -/
inductive SyncRun (lib : Libraries) (config : IZKServerConfig) (ok : List String → Db → Prop) :
    List String → Store → Prop
  | start {db : Db} (hseed : (seedZeros lib.poseidon config.zeroValue config.merkleTreeLevels).run {}
      = (.ok (), db)) : SyncRun lib config ok [] { db }
  | sync {L L' : List String} {s : Store} (h : SyncRun lib config ok L s) (hgrows : ListGrows L L')
      {answers : SemaphoreAnswers} (hmembers : answers.members "1" = some L') (hok : ok L' s.db) :
      SyncRun lib config ok L' ((SemaphoreSynchronizer.syncCommitmentsFromSemaphore lib.poseidon
        config answers).exec s)
  | chat {L : List String} {s : Store} (h : SyncRun lib config ok L s) (env : CallEnv)
      (text : String) :
      SyncRun lib config ok L { s with db := ((Request.chat text).exec lib config env s.db).2 }

/-! ## Leaves in the order of the list -/

/-- The leaves are those of the members, in order; those of banned members may be zero. -/
structure Mirrors (banned : String → Prop) (L : List String)
    (rows : List (IMerkleTreeNodeKey × String)) : Prop where
  length : rows.length = L.length
  entry : ∀ {i : ℕ} {row}, rows[i]? = some row → row.1.groupId = "1" ∧ row.1.indexInGroup = i ∧
    ∃ text, L[i]? = some text ∧ (row.2 = text ∨ row.2 = zeroText ∧ banned text)

namespace Mirrors

variable {banned banned' : String → Prop} {L L' : List String}
  {rows : List (IMerkleTreeNodeKey × String)}

theorem nil : Mirrors banned [] [] := ⟨rfl, fun h => by simp at h⟩

/-- Nobody's ban is lifted. -/
theorem mono (h : Mirrors banned L rows) (hbanned : ∀ text, banned text → banned' text) :
    Mirrors banned' L rows := by
  refine ⟨h.length, fun hrow => ?_⟩
  obtain ⟨hgroup, hindex, text, htext, hleaf⟩ := h.entry hrow
  exact ⟨hgroup, hindex, text, htext, hleaf.imp_right (And.imp_right (hbanned text))⟩

/-- One member more. -/
theorem concat (h : Mirrors banned L rows) {row : IMerkleTreeNodeKey × String} {text : String}
    (hgroup : row.1.groupId = "1") (hindex : row.1.indexInGroup = L.length) (htext : row.2 = text) :
    Mirrors banned (L ++ [text]) (rows ++ [row]) := by
  refine ⟨by simp [h.length], ?_⟩
  intro i r hr
  rcases Nat.lt_or_ge i L.length with hlt | hge
  · rw [List.getElem?_append_left (h.length.symm ▸ hlt)] at hr
    rw [List.getElem?_append_left hlt]
    exact h.entry hr
  · rw [List.getElem?_append_right (h.length.symm ▸ hge), h.length,
      List.getElem?_singleton] at hr
    split at hr
    · next hi =>
        obtain rfl : row = r := Option.some.inj hr
        obtain rfl : i = L.length := by omega
        exact ⟨hgroup, hindex, text, by simp, Or.inl htext⟩
    · cases hr

/-- A ban. A leaf that is zero already may be hit again. -/
theorem ban (h : Mirrors banned L rows) {commitment : String} (hbanned : banned commitment) :
    Mirrors banned L (Collection.modifyFirst (fun r => r.2 = commitment)
      (fun r => (r.1, zeroText)) rows) := by
  refine ⟨by simp [h.length], ?_⟩
  intro i row hrow
  rcases Collection.getElem?_modifyFirst hrow with hrow | ⟨r, hr, hhit, rfl⟩
  · exact h.entry hrow
  · obtain ⟨hgroup, hindex, text, htext, hleaf⟩ := h.entry hr
    refine ⟨hgroup, hindex, text, htext, Or.inr ⟨rfl, ?_⟩⟩
    rcases hleaf with hleaf | ⟨-, hbanned⟩
    · rwa [← hleaf, of_decide_eq_true hhit]
    · exact hbanned

variable {db : Db}

/-- The positions of the list are taken. -/
theorem hasMember (h : Mirrors banned L db.leafRows) {i : ℕ} (hi : i < L.length) :
    db.HasMember "1" i := by
  have hlt : i < db.leafRows.length := h.length.symm ▸ hi
  obtain ⟨hgroup, hindex, -⟩ := h.entry (List.getElem?_eq_getElem hlt)
  exact ⟨_, List.getElem_mem hlt, hgroup, hindex⟩

/-- No other position is. -/
theorem not_hasMember (h : Mirrors banned L db.leafRows) {i : ℕ} (hi : L.length ≤ i) :
    ¬ db.HasMember "1" i := by
  rintro ⟨row, hrow, -, hindex⟩
  obtain ⟨j, hj⟩ := List.mem_iff_getElem?.mp hrow
  have hlt := (List.getElem?_eq_some_iff.mp hj).1
  obtain ⟨-, hindex', -⟩ := h.entry hj
  rw [h.length] at hlt
  omega

/-- The one leaf of a member. -/
theorem leavesAt (h : Mirrors banned L db.leafRows) {i : ℕ} {row : IMerkleTreeNodeKey × String}
    (hrow : db.leafRows[i]? = some row) : db.leavesAt "1" i = [row] := by
  obtain ⟨hgroup, hindex, -⟩ := h.entry hrow
  refine Collection.filter_of_unique hrow (by simp [hgroup, hindex]) ?_
  intro j r hr hpos
  obtain ⟨-, hindex', -⟩ := h.entry hr
  have := (of_decide_eq_true hpos).2
  omega

/-- Leaves that mirror the list have converged to it. -/
theorem converged (h : Mirrors db.Banned L db.leafRows) : Converged L db := by
  intro i text htext
  have hlt : i < db.leafRows.length := h.length.symm ▸ (List.getElem?_eq_some_iff.mp htext).1
  have hrow := List.getElem?_eq_getElem hlt
  obtain ⟨-, -, text', htext', hleaf⟩ := h.entry hrow
  obtain rfl := Option.some.inj (htext.symm.trans htext')
  refine ⟨_, h.leavesAt hrow, ?_⟩
  split
  · next hzero => exact hleaf.elim (fun heq => heq.trans hzero) And.left
  · exact hleaf

/-- The list changes in place. -/
theorem grows (h : Mirrors banned (L ++ L'.drop L.length) rows) (hgrows : ListGrows L L')
    (hle : L.length ≤ L'.length)
    (hremoved : ∀ (i : ℕ) row, L'[i]? = some zeroText → rows[i]? = some row → row.2 = zeroText) :
    Mirrors banned L' rows := by
  refine ⟨by rw [h.length, List.length_append, List.length_drop]; omega, ?_⟩
  intro i row hrow
  obtain ⟨hgroup, hindex, text, htext, hleaf⟩ := h.entry hrow
  refine ⟨hgroup, hindex, ?_⟩
  rcases Nat.lt_or_ge i L.length with hlt | hge
  · rw [List.getElem?_append_left hlt] at htext
    rcases hgrows i text htext with hsame | hzero
    · exact ⟨text, hsame, hleaf⟩
    · exact ⟨zeroText, hzero, Or.inl (hremoved i row hzero hrow)⟩
  · rw [List.getElem?_append_right hge, List.getElem?_drop, Nat.add_sub_cancel' hge] at htext
    exact ⟨text, htext, hleaf⟩

end Mirrors

theorem ListGrows.length_le {L L' : List String} (h : ListGrows L L') : L.length ≤ L'.length := by
  by_contra hlt
  have hlast : L'.length < L.length := by omega
  rcases h L'.length _ (List.getElem?_eq_getElem hlast) with h | h
  · simp at h
  · simp at h

/-! ## Appending the members that are new -/

section Append

open SemaphoreFunctions

variable {poseidon : List ℤ → ℤ} {config : IZKServerConfig} {zeros : List IMerkleTreeZero}
  {groupId : String} {user : IGroupMember} {db : Db}

/-- Members whose positions are taken are passed over. -/
theorem run_appendMembers_taken {users : List IGroupMember}
    (h : ∀ user ∈ users, db.HasMember groupId user.index) (rest : List IGroupMember) :
    (appendMembers poseidon config zeros groupId (users ++ rest)).run db
      = (appendMembers poseidon config zeros groupId rest).run db := by
  induction users with
  | nil => rfl
  | cons user users ih =>
      rw [List.cons_append, appendMembers,
        run_bind_of_ok (run_appendMember_taken (h user (by simp)))]
      exact ih fun u hu => h u (by simp [hu])

theorem indexed_cons (k : ℕ) (text : String) (members : List String) :
    indexed k (text :: members) = ⟨k, text⟩ :: indexed (k + 1) members := by
  simp [indexed]

theorem indexed_append (k : ℕ) (A B : List String) :
    indexed k (A ++ B) = indexed k A ++ indexed (k + A.length) B := by
  simp [indexed, List.zipIdx_append]

@[simp] theorem length_indexed (k : ℕ) (members : List String) :
    (indexed k members).length = members.length := by
  simp [indexed]

theorem index_of_mem_indexed {A : List String} (h : user ∈ indexed 0 A) :
    ∃ i < A.length, user.index = (i : ℤ) := by
  obtain ⟨m, hm, rfl⟩ := List.mem_map.mp h
  exact ⟨m.2, by simpa using List.snd_lt_of_mem_zipIdx hm, rfl⟩

/-- The members after those that the leaves mirror are appended one by one. -/
theorem Db.Appendable.appendMembers {banned : String → Prop} {A B : List String}
    (h : db.Appendable poseidon config) (hA : Mirrors banned A db.leafRows) (hB : ∀ text ∈ B, Js.BigIntText text)
    (hroom : A.length + B.length ≤ 2 ^ config.merkleTreeLevels) :
    ∃ db', (appendMembers poseidon config db.treeZeros "1" (indexed A.length B)).run db
        = (.ok "Done", db') ∧
      db'.Appendable poseidon config ∧ db.leafRows <+: db'.leafRows ∧
      Mirrors banned (A ++ B) db'.leafRows := by
  induction B generalizing A db with
  | nil => exact ⟨db, rfl, h, List.prefix_rfl, by rwa [List.append_nil]⟩
  | cons text B ih =>
      have hcount : db.getTotalNumberOfLeaves = A.length := by
        rw [getTotalNumberOfLeaves_eq, hA.length]
      rw [List.length_cons] at hroom
      have huser : IGroupMember.Numeric ⟨A.length, text⟩ := hB text (by simp)
      obtain ⟨db₁, hrun, h₁, hrows, hzeros⟩ := h.appendUser "1" huser (by omega)
      have hA₁ : Mirrors banned (A ++ [text]) db₁.leafRows := hrows ▸ hA.concat rfl rfl rfl
      obtain ⟨db', hrest, h', hprefix, hrows'⟩ := ih h₁ hA₁ (fun t ht => hB t (by simp [ht]))
        (by rw [List.length_append, List.length_singleton]; omega)
      rw [List.append_assoc, List.singleton_append] at hrows'
      refine ⟨db', ?_, h', List.IsPrefix.trans ⟨_, hrows.symm⟩ hprefix, hrows'⟩
      rw [List.length_append, List.length_singleton, hzeros] at hrest
      rw [indexed_cons, UserService.appendMembers, run_bind_of_ok
        ((run_appendMember_free (hA.not_hasMember le_rfl)).trans hrun)]
      exact hrest

/-- `appendUsers` with the whole list. -/
theorem Db.Appendable.appendUsers {banned : String → Prop} {L L' : List String}
    (h : db.Appendable poseidon config) (hL : Mirrors banned L db.leafRows)
    (hle : L.length ≤ L'.length) (hfits : Fits config L') :
    ∃ r db', (appendUsers poseidon config (indexed 0 L') "1").run db = (.ok r, db') ∧
      db'.Appendable poseidon config ∧ db.leafRows <+: db'.leafRows ∧
      Mirrors banned (L ++ L'.drop L.length) db'.leafRows ∧
      db'.bannedUsers = db.bannedUsers := by
  suffices hrun : ∃ r db', (UserService.appendUsers poseidon config (indexed 0 L') "1").run db
        = (.ok r, db') ∧ db'.Appendable poseidon config ∧ db.leafRows <+: db'.leafRows ∧
        Mirrors banned (L ++ L'.drop L.length) db'.leafRows by
    obtain ⟨r, db', hrun, htree, hkept, hrows⟩ := hrun
    refine ⟨r, db', hrun, htree, hkept, hrows, ?_⟩
    have honly : OnlyTree db ((UserService.appendUsers poseidon config (indexed 0 L') "1").exec db) :=
      (appendUsers_onlyTree _ _).exec_onlyTree db
    rw [exec, hrun] at honly
    obtain ⟨nodes, rfl⟩ : OnlyTree db db' := honly
    rfl
  unfold UserService.appendUsers
  rw [length_indexed]
  split
  · next hnone =>
      have hdrop : L'.drop L.length = [] := List.drop_eq_nil_of_le (by omega)
      exact ⟨_, db, rfl, h, List.prefix_rfl, by rwa [hdrop, List.append_nil]⟩
  · have hzeros : db.treeZeros.length ≠ 0 := by
      rw [h.seeded, List.length_map, List.length_range]
      exact hfits.levels.ne'
    have htake : (L'.take L.length).length = L.length := List.length_take_of_le hle
    have hsplit : indexed 0 L'
        = indexed 0 (L'.take L.length) ++ indexed L.length (L'.drop L.length) := by
      conv_lhs => rw [← List.take_append_drop L.length L']
      rw [indexed_append, htake, Nat.zero_add]
    -- the whole list is passed; the members that have a leaf are skipped
    have htaken : ∀ user ∈ indexed 0 (L'.take L.length), db.HasMember "1" user.index := by
      intro user huser
      obtain ⟨i, hi, hindex⟩ := index_of_mem_indexed huser
      rw [hindex]
      exact hL.hasMember (htake ▸ hi)
    obtain ⟨db', hrun, h', hprefix, hrows⟩ := h.appendMembers hL
      (fun t ht => hfits.numeric t (List.mem_of_mem_drop ht))
      (by rw [List.length_drop, Nat.add_sub_cancel' hle]; exact hfits.room)
    refine ⟨"Done", db', ?_, h', hprefix, hrows⟩
    unfold MerkleTreeZero.findZeros
    rw [run_query_bind, if_neg hzeros, hsplit, run_appendMembers_taken htaken]
    exact hrun

end Append

/-! ## One call -/

/-- The one supported group is stored, with `n` leaves. -/
def Known (n : ℕ) (groups : List IGroup) : Prop :=
  ∃ g, groups = [g] ∧ g.group_id = "1" ∧ g.number_of_leaves = n

/-- Between two calls: the leaves mirror the list that the last call saw, its length is the stored
    number of leaves, and the tree can be appended to. -/
structure SyncInv (poseidon : List ℤ → ℤ) (config : IZKServerConfig) (L : List String)
    (s : Store) : Prop where
  tree : s.db.Appendable poseidon config
  rows : Mirrors s.db.Banned L s.db.leafRows
  groups : (s.groups = [] ∧ L = []) ∨ Known L.length s.groups

/-- What a call does with a list `L'` that has grown from `L`: the leaves that are there stay as they
    are, there is a leaf more for every member more, and nobody is banned. -/
structure Extended (poseidon : List ℤ → ℤ) (config : IZKServerConfig) (L L' : List String)
    (s s' : Store) : Prop where
  tree : s'.db.Appendable poseidon config
  kept : s.db.leafRows <+: s'.db.leafRows
  rows : Mirrors s.db.Banned (L ++ L'.drop L.length) s'.db.leafRows
  bannedUsers : s'.db.bannedUsers = s.db.bannedUsers
  groups : Known L'.length s'.groups

section Sync

open SemaphoreSynchronizer SemaphoreFunctions GroupService

variable {poseidon : List ℤ → ℤ} {config : IZKServerConfig} {answers : SemaphoreAnswers}
  {L L' : List String} {s : Store} {g : ISemaphoreRepGroupV2}

theorem SyncInv.addGroup (h : SyncInv poseidon config L s) (hnone : s.groups = []) (hL : L = [])
    (hfits : Fits config L') (hg : g.id = "1") (changed : Bool) :
    ∃ b s', (addGroup poseidon config g (indexed 0 L') changed).run s = (.ok b, s') ∧
      Extended poseidon config L L' s s' := by
  obtain ⟨r, db', hrun, htree, hkept, hrows, hbanned⟩ :=
    h.tree.appendUsers h.rows (by simp [hL]) hfits
  refine ⟨true, { db := db', groups := [⟨"1", "Semaphore", g.name, L'.length, L'.length⟩] }, ?_,
    htree, hkept, hrows, hbanned, _, rfl, rfl, rfl⟩
  refine run_tryCatch_of_ok ?_
  rw [hg, run_bind_of_ok (by rw [run_onDb, hrun])]
  simp [saveGroup, run_bind, hnone]

theorem SyncInv.addMembers (h : SyncInv poseidon config L s) {groupInDb : IGroup}
    (hgroups : s.groups = [groupInDb]) (hid : groupInDb.group_id = "1")
    (hleaves : groupInDb.number_of_leaves = L.length) (hle : L.length ≤ L'.length)
    (hfits : Fits config L') (hg : g.id = "1") (changed : Bool) :
    ∃ b s', (addMembers poseidon config g groupInDb (indexed 0 L') changed).run s = (.ok b, s') ∧
      Extended poseidon config L L' s s' := by
  unfold SemaphoreSynchronizer.addMembers
  rw [length_indexed, hleaves]
  split
  · obtain ⟨r, db', hrun, htree, hkept, hrows, hbanned⟩ := h.tree.appendUsers h.rows hle hfits
    refine ⟨true, { db := db', groups := [{ groupInDb with number_of_leaves := L'.length }] }, ?_,
      htree, hkept, hrows, hbanned, _, rfl, hid, rfl⟩
    refine run_tryCatch_of_ok ?_
    rw [hg, run_bind_of_ok (by rw [run_onDb, hrun])]
    simp [updateNumberOfLeaves, findOneAndUpdate, hgroups, Collection.modifyFirst, hid]
  · next hnot =>
      have heq : L'.length = L.length := by omega
      refine ⟨changed, s, rfl, h.tree, List.prefix_rfl, ?_, rfl, groupInDb, hgroups, hid,
        hleaves.trans heq.symm⟩
      rw [List.drop_eq_nil_of_le heq.le, List.append_nil]
      exact h.rows

/-- Nothing is ever removed. -/
theorem run_removeUsersByObjects (indexes : List IGroupMember) (db : Db) :
    ∃ r, (removeUsersByObjects indexes).run db = (r, db) := by
  unfold removeUsersByObjects
  split
  · exact ⟨_, rfl⟩
  · unfold MerkleTreeZero.findZeros
    rw [run_query_bind]
    split
    · exact ⟨_, rfl⟩
    · exact ⟨_, rfl⟩

theorem run_removeMembers (answers : SemaphoreAnswers) (g : ISemaphoreRepGroupV2)
    (groupInDb : IGroup) {n : ℕ} (hknown : Known n s.groups) (numberOfLeaves : ℕ) (changed : Bool) :
    ∃ b groups, (removeMembers answers g groupInDb numberOfLeaves changed).run s
      = (.ok b, { s with groups }) ∧ Known n groups := by
  unfold removeMembers
  split
  · obtain ⟨r, hr⟩ := run_removeUsersByObjects
      (getRemovedMembersForGroup (answers.removedMembers g.id)) s.db
    cases r with
    | error e =>
        -- caught, and the size stays what it was
        refine ⟨changed, s.groups, run_tryCatch_of_error (e := e) ?_, hknown⟩
        exact run_bind_of_error (by rw [run_onDb, hr])
    | ok r =>
        obtain ⟨g', hgroups, hid, hleaves⟩ := hknown
        refine ⟨true, Collection.modifyFirst (fun x => x.group_id = g.id)
          (fun x => { x with size := numberOfLeaves }) s.groups, run_tryCatch_of_ok ?_, ?_⟩
        · rw [run_bind_of_ok (by rw [run_onDb, hr])]
          rfl
        · rw [hgroups, Collection.modifyFirst]
          split
          · exact ⟨_, rfl, hid, hleaves⟩
          · exact ⟨_, rfl, hid, hleaves⟩
  · exact ⟨changed, s.groups, rfl, hknown⟩

theorem SyncInv.syncGroup (h : SyncInv poseidon config L s) (hgrows : ListGrows L L')
    (hfits : Fits config L') (hg : g.id = "1") (hmembers : answers.members "1" = some L')
    (changed : Bool) :
    ∃ b s', (syncGroup poseidon config answers s.groups g changed).run s = (.ok b, s') ∧
      Extended poseidon config L L' s s' := by
  unfold SemaphoreSynchronizer.syncGroup
  simp only [hg, hmembers, getMembersForGroup, length_indexed]
  rcases h.groups with ⟨hnone, hL⟩ | ⟨groupInDb, hgroups, hid, hleaves⟩
  · -- the first call
    simp only [hnone, List.find?_nil]
    exact h.addGroup hnone hL hfits hg changed
  · have hfind : s.groups.find? (fun x => decide (x.group_id = "1")) = some groupInDb := by
      rw [hgroups, List.find?_cons_of_pos (by simp [hid])]
    simp only [hfind]
    obtain ⟨b, s₁, hrun, hext⟩ :=
      h.addMembers hgroups hid hleaves hgrows.length_le hfits hg changed
    obtain ⟨b', groups, hrun', hknown⟩ :=
      run_removeMembers answers g groupInDb hext.groups L'.length b
    exact ⟨b', _, (run_bind_of_ok hrun).trans hrun', hext.tree, hext.kept, hext.rows,
      hext.bannedUsers, hknown⟩

/-- One call, whatever the list of removed members is. -/
theorem SyncInv.syncCommitmentsFromSemaphore (h : SyncInv poseidon config L s)
    (hgrows : ListGrows L L') (hfits : Fits config L') (hmembers : answers.members "1" = some L') :
    Extended poseidon config L L' s
      ((syncCommitmentsFromSemaphore poseidon config answers).exec s) := by
  obtain ⟨b, s', hrun, hext⟩ :=
    h.syncGroup (g := ⟨"1", "Zuzalu Participants", 16⟩) hgrows hfits rfl hmembers false
  have hrun' : (syncGroups poseidon config answers s.groups getAllGroups false).run s
      = (.ok b, s') := by
    unfold syncGroups getAllGroups
    rw [run_bind_of_ok hrun]
    rfl
  unfold SemaphoreSynchronizer.syncCommitmentsFromSemaphore getGroups
  rw [exec, run_query_bind, run_bind_of_ok hrun']
  cases b with
  | false => exact hext
  | true =>
      exact ⟨hext.tree.keeps (.of_eq rfl rfl) rfl, hext.kept, hext.rows, hext.bannedUsers,
        hext.groups⟩

/-- The leaves mirror the grown list where the removed members are zero already. -/
theorem Extended.mirrors {s' : Store} (h : SyncInv poseidon config L s)
    (hext : Extended poseidon config L L' s s') (hgrows : ListGrows L L')
    (hremoved : RemovedAreZero L' s.db) : Mirrors s'.db.Banned L' s'.db.leafRows := by
  have hrows : Mirrors s'.db.Banned (L ++ L'.drop L.length) s'.db.leafRows := by
    refine hext.rows.mono fun text hbanned => ?_
    rwa [Db.Banned, hext.bannedUsers]
  refine hrows.grows hgrows hgrows.length_le ?_
  intro i row hzero hrow
  rcases Nat.lt_or_ge i L.length with hlt | hge
  · -- a leaf from before the call, which has not touched it
    have hold : s.db.leafRows[i]? = some row := by
      obtain ⟨new, hnew⟩ := hext.kept
      rwa [← hnew, List.getElem?_append_left (h.rows.length.symm ▸ hlt)] at hrow
    exact hremoved i hzero row (by rw [h.rows.leavesAt hold]; exact List.mem_singleton_self row)
  · obtain ⟨-, -, text, htext, hleaf⟩ := hext.rows.entry hrow
    rw [List.getElem?_append_right hge, List.getElem?_drop, Nat.add_sub_cancel' hge, hzero,
      Option.some.injEq] at htext
    exact hleaf.elim (fun heq => heq.trans htext.symm) And.left

/-- After a call the tree follows the list exactly when the removed members were zero before it. -/
theorem SyncInv.converged_iff (h : SyncInv poseidon config L s) (hgrows : ListGrows L L')
    (hfits : Fits config L') (hmembers : answers.members "1" = some L') :
    Converged L'
        ((SemaphoreSynchronizer.syncCommitmentsFromSemaphore poseidon config answers).exec s).db ↔
      RemovedAreZero L' s.db := by
  have hext := h.syncCommitmentsFromSemaphore hgrows hfits hmembers
  constructor
  · intro hconv i hzero row hrow
    obtain ⟨hmem, hpos⟩ := List.mem_filter.mp hrow
    obtain ⟨row', hleaves, htext⟩ := hconv i zeroText hzero
    have hrow' : row ∈ Db.leavesAt "1" i
        ((SemaphoreSynchronizer.syncCommitmentsFromSemaphore poseidon config answers).exec s).db :=
      List.mem_filter.mpr ⟨hext.kept.subset hmem, hpos⟩
    rw [hleaves, List.mem_singleton] at hrow'
    rw [if_pos rfl] at htext
    rw [hrow', htext]
  · exact fun hremoved => (hext.mirrors h hgrows hremoved).converged

theorem SyncInv.sync (h : SyncInv poseidon config L s) (hgrows : ListGrows L L')
    (hmembers : answers.members "1" = some L') (hok : CarefulSync config L' s.db) :
    SyncInv poseidon config L'
      ((SemaphoreSynchronizer.syncCommitmentsFromSemaphore poseidon config answers).exec s) := by
  have hext := h.syncCommitmentsFromSemaphore hgrows hok.fits hmembers
  exact ⟨hext.tree, hext.mirrors h hgrows hok.removed, Or.inr hext.groups⟩

end Sync

/-! ## Runs -/

section

variable {lib : Libraries} {config : IZKServerConfig} {L : List String} {s : Store}

theorem SyncInv.chat (h : SyncInv lib.poseidon config L s)
    (hzero : config.zeroValue = DEFAULT_ZERO_VALUE) (env : CallEnv) (text : String) :
    SyncInv lib.poseidon config L
      { s with db := ((Request.chat text).exec lib config env s.db).2 } := by
  have hrows : Mirrors ((Request.chat text).exec lib config env s.db).2.Banned L
      ((Request.chat text).exec lib config env s.db).2.leafRows := by
    rcases chat_sameNodes_or_ban lib config env text s.db with hsame | ⟨user, hrec⟩
    · rw [Db.leafRows, hsame.treeNodes]
      refine h.rows.mono fun t hbanned => ?_
      rwa [Db.Banned, hsame.bannedUsers]
    · cases hrec.outcome with
      | unknown _ hdb =>
          rw [hdb]
          exact h.rows
      | conflict _ _ _ hdb =>
          rw [hdb]
          exact h.rows
      | banned _ _ hbanned hleaves =>
          rw [hleaves, hzero]
          have hnew : ((Request.chat text).exec lib config env s.db).2.Banned user.idCommitment :=
            ⟨_, by rw [hbanned]; exact List.mem_append_right _ (List.mem_singleton_self _), rfl⟩
          refine Mirrors.ban (h.rows.mono ?_) hnew
          rintro t ⟨b, hb, ht⟩
          exact ⟨b, by rw [hbanned]; exact List.mem_append_left _ hb, ht⟩
  refine ⟨h.tree.keeps ?_ (hrows.length.trans h.rows.length.symm), hrows, h.groups⟩
  exact (handleChatMessage_keeps lib config env text).exec Keeps.refl (fun _ _ _ => Keeps.trans) s.db

theorem SyncRun.inv (hzero : config.zeroValue = DEFAULT_ZERO_VALUE)
    (h : SyncRun lib config (CarefulSync config) L s) : SyncInv lib.poseidon config L s := by
  induction h with
  | start hseed =>
      obtain ⟨db', hseed', hseeded, hnodes⟩ := seedZeros_seeded lib.poseidon config
      obtain rfl := (Prod.mk.inj (hseed.symm.trans hseed')).2
      refine ⟨.empty hseeded hnodes, ?_, Or.inl ⟨rfl, rfl⟩⟩
      rw [Db.leafRows, hnodes]
      exact .nil
  | sync _ hgrows hmembers hok ih => exact ih.sync hgrows hmembers hok
  | chat _ env text ih => exact ih.chat hzero env text

/-- In a run where every call finds the removed members zero already, the tree follows the list. -/
theorem converged_of_careful (hzero : config.zeroValue = DEFAULT_ZERO_VALUE)
    (h : SyncRun lib config (CarefulSync config) L s) : Converged L s.db :=
  (h.inv hzero).rows.converged

end

/-! ## A group of one member, and then two -/

namespace Demo

def configSemaphore : IZKServerConfig := { config 1 with zeroValue := DEFAULT_ZERO_VALUE }

/-- The server before its first call. -/
def started : Store := { db := (seedZeros sumHash DEFAULT_ZERO_VALUE 1).exec {} }

/-- After a call all of whose requests see the list `L`. -/
def synced (L : List String) (s : Store) : Store :=
  (SemaphoreSynchronizer.syncCommitmentsFromSemaphore sumHash configSemaphore
    ⟨fun _ => some L, fun _ => some L⟩).exec s

theorem syncRun_started {ok : List String → Db → Prop} :
    SyncRun lib configSemaphore ok [] started := by
  obtain ⟨db, hseed, -, -⟩ := seedZeros_seeded sumHash configSemaphore
  have hstarted : started = { db } := congrArg (fun r => ({ db := r.2 } : Store)) hseed
  exact hstarted ▸ .start hseed

theorem fits {L : List String} (hnumeric : ∀ text ∈ L, Js.BigIntText text) (hroom : L.length ≤ 2) :
    Fits configSemaphore L :=
  ⟨by decide, hnumeric, hroom⟩

end Demo

/-- A member joins, a call sees it, the member is removed, a call sees the list again: its leaf is
    still there. -/
theorem removed_member_stays :
    ¬ ∀ (lib : Libraries) (config : IZKServerConfig) (L : List String) (s : Store),
      config.zeroValue = DEFAULT_ZERO_VALUE →
      SyncRun lib config (fun L _ => Fits config L) L s → Converged L s.db := by
  intro h
  have hjoined : SyncRun Demo.lib Demo.configSemaphore (fun L _ => Fits Demo.configSemaphore L)
      ["5"] (Demo.synced ["5"] Demo.started) :=
    Demo.syncRun_started.sync (fun _ _ h => by simp at h) rfl
      (Demo.fits (by decide +kernel) (by decide))
  have hremoved : SyncRun Demo.lib Demo.configSemaphore (fun L _ => Fits Demo.configSemaphore L)
      [zeroText] (Demo.synced [zeroText] (Demo.synced ["5"] Demo.started)) := by
    refine hjoined.sync ?_ rfl (Demo.fits (by decide +kernel) (by decide))
    intro i text htext
    cases i with
    | zero => exact Or.inr rfl
    | succ i => simp at htext
  obtain ⟨row, hleaves, htext⟩ := h _ _ _ _ rfl hremoved 0 zeroText rfl
  have hrow : row ∈ (Demo.synced [zeroText] (Demo.synced ["5"] Demo.started)).db.leavesAt "1" 0 :=
    hleaves ▸ List.mem_singleton_self row
  have hstays : ∀ row ∈ (Demo.synced [zeroText] (Demo.synced ["5"]
      Demo.started)).db.leavesAt "1" 0, row.2 ≠ zeroText := by
    decide +kernel
  exact hstays row hrow htext

/-- A member joins, a call sees it, and a call sees a second one that was removed before. -/
theorem new_members_converge :
    Converged ["5", zeroText] (Demo.synced ["5", zeroText] (Demo.synced ["5"] Demo.started)).db := by
  have hjoined : SyncRun Demo.lib Demo.configSemaphore (CarefulSync Demo.configSemaphore)
      ["5"] (Demo.synced ["5"] Demo.started) := by
    refine Demo.syncRun_started.sync (fun _ _ h => by simp at h) rfl
      ⟨Demo.fits (by decide +kernel) (by decide), ?_⟩
    intro i hi row hrow
    cases i with
    | zero => exact absurd hi (by decide +kernel)
    | succ i => simp at hi
  have hgrown : SyncRun Demo.lib Demo.configSemaphore (CarefulSync Demo.configSemaphore)
      ["5", zeroText] (Demo.synced ["5", zeroText] (Demo.synced ["5"] Demo.started)) := by
    refine hjoined.sync ?_ rfl ⟨Demo.fits (by decide +kernel) (by decide), ?_⟩
    · intro i text htext
      cases i with
      | zero => exact Or.inl htext
      | succ i => simp at htext
    · intro i hi row hrow
      match i with
      | 0 => exact absurd hi (by decide +kernel)
      | 1 =>
          have hfree : (Demo.synced ["5"] Demo.started).db.leavesAt "1" 1 = [] := by
            decide +kernel
          rw [hfree] at hrow
          cases hrow
      | i + 2 => simp at hi
  exact converged_of_careful rfl hgrown

end ZkChat
