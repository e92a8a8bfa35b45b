import ZkChat.Server.Slashing

set_option autoImplicit false

/-! # Whether a banned member stays out

A ban clears one leaf, the first with the canonical text of the commitment. The member is out
where that was its only leaf and no row of `BannedUser` is in the way; and it stays out as long as
no later sync brings the commitment at a new position of a group, since the test of `appendUsers`
for an existing member looks at the position, not at the commitment. -/

namespace ZkChat

open Prog UserService

namespace Db

/-- No leaf denotes `c`. -/
def Absent (c : ℤ) (db : Db) : Prop :=
  ∀ n ∈ db.treeNodes, n.key.level = 0 → Js.stringToBigInt n.hash ≠ some c

instance (c : ℤ) (db : Db) : Decidable (db.Absent c) :=
  inferInstanceAs (Decidable (∀ n ∈ db.treeNodes, _))

/-- The leaves that denote `c`. -/
def leavesOf (c : ℤ) (db : Db) : List (IMerkleTreeNodeKey × String) :=
  db.leafRows.filter fun row => Js.stringToBigInt row.2 = some c

/-- Only one leaf denotes the commitment of `user`, it has the canonical text, and nothing stands
    in the way of the user's row in `BannedUser`. -/
def OnlyLeaf (user : RecoveredUser) (c : ℤ) (db : Db) : Prop :=
  ∃ row, db.leavesOf c = [row] ∧ row.2 = user.idCommitment ∧
    ∀ b ∈ db.bannedUsers, ¬ b.Conflicts (user.row row.1.index)

end Db

/-! ## Operations and runs -/

/-- What the server does with the tree: group syncs, removals, chat messages. -/
inductive Operation where
  | appendUsers (users : List IGroupMember) (groupId : String)
  | removeUsersByIndexes (indexes : List ℤ) (groupId : String)
  | chat (env : CallEnv) (text : String)

namespace Operation

def exec (lib : Libraries) (config : IZKServerConfig) : Operation → Db → Db
  | appendUsers users groupId, db =>
      (UserService.appendUsers lib.poseidon config users groupId).exec db
  | removeUsersByIndexes indexes groupId, db =>
      (UserService.removeUsersByIndexes lib.poseidon config indexes groupId).exec db
  | chat env text, db => ((Request.chat text).exec lib config env db).2

/-- Whoever the sync brings with a commitment that denotes `c` is skipped: its position in the
    group is taken, by a leaf or by a member before it in the list. -/
def BringsNo (c : ℤ) : Operation → Db → Prop
  | appendUsers users groupId, db => ∀ before user after, users = before ++ user :: after →
      Js.stringToBigInt user.identityCommitment = some c →
        db.HasMember groupId user.index ∨ ∃ v ∈ before, v.index = user.index
  | _, _ => True

end Operation

/-- The states that operations lead to from a state, where each satisfies `ok` when it starts. -/
inductive Later (lib : Libraries) (config : IZKServerConfig) (ok : Operation → Db → Prop)
    (db : Db) : Db → Prop
  | now : Later lib config ok db db
  | operation {db' : Db} (h : Later lib config ok db db') (op : Operation) (hok : ok op db') :
      Later lib config ok db (op.exec lib config db')

section

variable {lib : Libraries} {config : IZKServerConfig} {env : CallEnv} {c : ℤ} {db db' : Db}

/-! ## Leaves -/

theorem Db.absent_iff : db.Absent c ↔ ∀ row ∈ db.leafRows, Js.stringToBigInt row.2 ≠ some c := by
  constructor
  · intro h row hrow
    obtain ⟨n, hn, hlevel, rfl⟩ := mem_leafRows.mp hrow
    exact h n hn hlevel
  · intro h n hn hlevel
    exact h (n.key, n.hash) (mem_leafRows.mpr ⟨n, hn, hlevel, rfl⟩)

theorem Db.absent_iff_leavesOf : db.Absent c ↔ db.leavesOf c = [] := by
  rw [Db.absent_iff, Db.leavesOf, List.filter_eq_nil_iff]
  simp

/-! ## Removals and bans bring in zeros only -/

/-- Every leaf is an old one or has the text `z`. -/
def OldOr (z : String) (db db' : Db) : Prop := ∀ row ∈ db'.leafRows, row ∈ db.leafRows ∨ row.2 = z

theorem OldOr.refl (z : String) (db : Db) : OldOr z db db := fun _ h => Or.inl h

theorem OldOr.trans {z : String} {a b c : Db} (h : OldOr z a b) (h' : OldOr z b c) :
    OldOr z a c := by
  intro row hrow
  rcases h' row hrow with hrow | hz
  · exact h row hrow
  · exact Or.inr hz

theorem OldOr.of_modifyFirst {z : String} {q : IMerkleTreeNodeKey × String → Bool}
    (h : db'.leafRows = Collection.modifyFirst q (fun r => (r.1, z)) db.leafRows) :
    OldOr z db db' := by
  intro row hrow
  rw [h] at hrow
  rcases Collection.mem_modifyFirst hrow with hrow | ⟨_, _, _, rfl⟩
  · exact Or.inl hrow
  · exact Or.inr rfl

theorem OldOr.absent (h : OldOr (Js.bigIntToString config.zeroValue) db db')
    (hzero : config.zeroValue ≠ c) (habsent : db.Absent c) : db'.Absent c := by
  rw [Db.absent_iff] at habsent ⊢
  intro row hrow
  rcases h row hrow with hrow | hz
  · exact habsent row hrow
  · rw [hz, Js.stringToBigInt_bigIntToString]
    simpa using hzero

theorem updateUser_oldOr (leafHash z : String) (db : Db) :
    (updateUser lib.poseidon config leafHash z).wp (fun _ db' => OldOr z db db') db :=
  OldOr.of_modifyFirst (updateUser_leafRows lib.poseidon config leafHash z db)

theorem removeEach_oldOr (groupId : String) (indexes : List ℤ) (db : Db) :
    (removeEach lib.poseidon config groupId indexes).wp
      (fun _ db' => OldOr (Js.bigIntToString config.zeroValue) db db') db :=
  wp_removeEach (fun db => OldOr.refl _ db) (fun h h' => h.trans h')
    (fun leafHash db => updateUser_oldOr leafHash _ db) groupId indexes db

theorem removeUsersByIndexes_oldOr (indexes : List ℤ) (groupId : String) (db : Db) :
    (removeUsersByIndexes lib.poseidon config indexes groupId).wp
      (fun _ db' => OldOr (Js.bigIntToString config.zeroValue) db db') db :=
  wp_removeUsersByIndexes (fun _ => OldOr.refl _ db) (removeEach_oldOr groupId indexes db)

theorem BanOutcome.oldOr {user : RecoveredUser} (h : BanOutcome config user db db') :
    OldOr (Js.bigIntToString config.zeroValue) db db' := by
  cases h with
  | unknown _ h =>
      rw [h]
      exact OldOr.refl _ db
  | conflict _ _ _ h =>
      rw [h]
      exact OldOr.refl _ db
  | banned _ _ _ hleaves => exact OldOr.of_modifyFirst hleaves

/-- A step that leaves the nodes and the bans alone. -/
structure SameNodes (db db' : Db) : Prop where
  treeNodes : db'.treeNodes = db.treeNodes
  bannedUsers : db'.bannedUsers = db.bannedUsers

theorem SameNodes.refl (db : Db) : SameNodes db db := ⟨rfl, rfl⟩

theorem SameNodes.trans {a b c : Db} (h : SameNodes a b) (h' : SameNodes b c) : SameNodes a c :=
  ⟨h'.treeNodes.trans h.treeNodes, h'.bannedUsers.trans h.bannedUsers⟩

theorem persistAndBroadcast_sameNodes (env : CallEnv) (m : RLNMessage) :
    Within SameNodes (MessageHandlerService.persistAndBroadcast env m) := by
  have save : Within SameNodes
      (StatsModel.RequestStats.saveMessage m.zk_proof m.epoch m.x_share) :=
    .bind (.ofExcept _) fun _ => .bind (.ofExcept _) fun _ => .bind (.ofExcept _) fun _ =>
      .bind (.ofExcept _) fun _ => .modify fun _ => ⟨rfl, rfl⟩
  refine .bind ?_ fun _ => .bind save fun _ => .bind (.modify fun _ => ⟨rfl, rfl⟩) fun _ => .ret _
  refine .bind (.ofExcept _) fun epoch => .bind (.ofExcept _) fun _ => .bind (.ofExcept _) fun _ =>
    .bind (.ofExcept _) fun _ => ?_
  cases epoch with
  | finite q =>
      refine .await fun db => ?_
      split <;> exact ⟨rfl, rfl⟩
  | infinity _ => exact .raise _
  | nan => exact .raise _

/-- A chat message leaves the nodes and the bans alone, or somebody is to be banned. -/
theorem chat_sameNodes_or_ban (lib : Libraries) (config : IZKServerConfig) (env : CallEnv)
    (text : String) (db : Db) :
    SameNodes db ((Request.chat text).exec lib config env db).2 ∨
      ∃ user, Recovers lib config env text db user := by
  simp only [Request.exec, MessageHandlerService.handleChatMessage]
  cases hformat : validateFormat text with
  | none => exact Or.inl (.refl db)
  | some m =>
      simp only [MessageHandlerService.handleValid]
      have hread := (checkRules_readOnly lib config env .RequestStats m.zk_proof m.epoch
        m.x_share).exec_eq db
      cases hcheck : (checkRules lib config env .RequestStats m.zk_proof m.epoch m.x_share).run db
        with
      | mk out db₁ =>
          obtain rfl : db₁ = db := by rwa [Prog.exec, hcheck] at hread
          cases out with
          | error e =>
              rw [run_bind_of_error hcheck]
              exact Or.inl (.refl _)
          | ok spam =>
              rw [run_bind_of_ok hcheck]
              cases spam with
              | false =>
                  exact Or.inl ((persistAndBroadcast_sameNodes env m).exec SameNodes.refl
                    (fun _ _ _ => SameNodes.trans) _)
              | true =>
                  obtain ⟨-, nullifier, hchecked⟩ := run_checkRules hcheck
                  obtain ⟨hcount, -⟩ := of_decide_eq_true hchecked.spam.symm
                  obtain ⟨old, -, hcounted⟩ := List.countP_pos_iff.mp (Nat.pos_of_ne_zero hcount)
                  obtain ⟨t, ht⟩ :=
                    epoch_of_counted hchecked.fresh (Bool.and_eq_true_iff.mp hcounted).1
                  have hrows := run_getRequestStats lib t m.zk_proof db₁ hchecked.hasNullifier
                  rw [← ht] at hrows
                  rw [if_pos rfl, MessageHandlerService.banSender, run_bind_of_ok hrows]
                  cases huser : getUserFromShares lib m.zk_proof m.x_share _ with
                  | error e => exact Or.inl (.refl _)
                  | ok user => exact Or.inr ⟨user, m, _, hformat, hcheck, hrows, huser⟩

theorem chat_oldOr (text : String) (db : Db) :
    OldOr (Js.bigIntToString config.zeroValue) db
      ((Request.chat text).exec lib config env db).2 := by
  rcases chat_sameNodes_or_ban lib config env text db with hsame | ⟨user, hrec⟩
  · intro row hrow
    rw [Db.leafRows, hsame.treeNodes] at hrow
    exact Or.inl hrow
  · exact hrec.outcome.oldOr

/-! ## What a sync brings in -/

/-- What one member of the list adds: nothing where its position is taken, its commitment
    otherwise. -/
structure MemberAdded (groupId : String) (user : IGroupMember) (db : Db) (r : Except Exn Unit)
    (db' : Db) : Prop where
  rows : ∀ row ∈ db'.leafRows, row ∈ db.leafRows ∨
    ¬ db.HasMember groupId user.index ∧ row.2 = user.identityCommitment
  kept : ∀ i, db.HasMember groupId i → db'.HasMember groupId i
  taken : r = .ok () → db'.HasMember groupId user.index

theorem MemberAdded.unchanged {groupId : String} {user : IGroupMember} {r : Except Exn Unit}
    (h : r = .ok () → db.HasMember groupId user.index) : MemberAdded groupId user db r db :=
  ⟨fun _ hrow => Or.inl hrow, fun _ hi => hi, h⟩

theorem MemberOutcome.memberAdded {groupId : String} {user : IGroupMember} {r : Except Exn Unit}
    (h : MemberOutcome groupId user db r db') : MemberAdded groupId user db r db' := by
  cases h with
  | taken htaken => exact .unchanged fun _ => htaken
  | full => exact .unchanged fun h => nomatch h
  | added r hfree hrows =>
      refine ⟨fun row hrow => ?_, ?_, fun _ => ?_⟩
      · rw [hrows, List.mem_append, List.mem_singleton] at hrow
        rcases hrow with hrow | rfl
        · exact Or.inl hrow
        · exact Or.inr ⟨hfree, rfl⟩
      · rintro i ⟨row, hrow, hi⟩
        exact ⟨row, by rw [hrows]; exact List.mem_append_left _ hrow, hi⟩
      · exact ⟨_, by rw [hrows]; exact List.mem_append_right _ (List.mem_singleton_self _), rfl,
          rfl⟩

/-- A member of the list has this commitment, and no leaf and no member before it has its
    position. -/
def Brought (db : Db) (groupId : String) (users : List IGroupMember) (commitment : String) : Prop :=
  ∃ before user after, users = before ++ user :: after ∧ user.identityCommitment = commitment ∧
    ¬ db.HasMember groupId user.index ∧ ∀ v ∈ before, v.index ≠ user.index

theorem appendMembers_brought (zeros : List IMerkleTreeZero) (groupId : String)
    (users : List IGroupMember) (db : Db) :
    (appendMembers lib.poseidon config zeros groupId users).wp (fun _ db' =>
      ∀ row ∈ db'.leafRows, row ∈ db.leafRows ∨ Brought db groupId users row.2) db := by
  induction users generalizing db with
  | nil => exact fun _ h => Or.inl h
  | cons user users ih =>
      unfold appendMembers
      rw [wp_bind]
      refine wp_mono (appendMember_outcome _ _ zeros groupId user db) ?_
      have hhead : ∀ {r db₁}, MemberAdded groupId user db r db₁ → ∀ row ∈ db₁.leafRows,
          row ∈ db.leafRows ∨ Brought db groupId (user :: users) row.2 := by
        intro r db₁ h row hrow
        rcases h.rows row hrow with hrow | ⟨hfree, hrow⟩
        · exact Or.inl hrow
        · exact Or.inr ⟨[], user, users, rfl, hrow.symm, hfree, by simp⟩
      rintro (e | u) db₁ hout
      · exact hhead hout.memberAdded
      · have h := hout.memberAdded
        rw [andThen_ok]
        refine wp_mono (ih db₁) ?_
        intro _ db₂ hrest row hrow
        rcases hrest row hrow with hrow | ⟨before, v, after, rfl, hv, hfree, hbefore⟩
        · exact hhead h row hrow
        · refine Or.inr ⟨user :: before, v, after, rfl, hv, fun hi => hfree (h.kept _ hi), ?_⟩
          intro w hw
          rcases List.mem_cons.mp hw with rfl | hw
          · -- the head has its position now, so a later member of that position is skipped
            intro heq
            exact hfree (heq ▸ h.taken rfl)
          · exact hbefore w hw

theorem appendUsers_brought (users : List IGroupMember) (groupId : String) (db : Db) :
    (appendUsers lib.poseidon config users groupId).wp (fun _ db' =>
      ∀ row ∈ db'.leafRows, row ∈ db.leafRows ∨ Brought db groupId users row.2) db :=
  wp_appendUsers (fun _ _ h => Or.inl h) (fun _ _ h => Or.inl h)
    (appendMembers_brought _ groupId users db)

/-! ## Staying out -/

/-- One operation keeps an absent member out. -/
theorem Db.Absent.exec (h : db.Absent c) (hzero : config.zeroValue ≠ c) {op : Operation}
    (hop : op.BringsNo c db) : (op.exec lib config db).Absent c := by
  cases op with
  | appendUsers users groupId =>
      rw [Db.absent_iff] at h ⊢
      intro row hrow
      rcases appendUsers_brought users groupId db row hrow with
        hrow | ⟨before, user, after, husers, htext, hfree, hbefore⟩
      · exact h row hrow
      · intro hc
        rw [← htext] at hc
        rcases hop before user after husers hc with htaken | ⟨v, hv, heq⟩
        · exact hfree htaken
        · exact hbefore v hv heq
  | removeUsersByIndexes indexes groupId =>
      exact OldOr.absent (removeUsersByIndexes_oldOr indexes groupId db) hzero h
  | chat env text => exact (chat_oldOr text db).absent hzero h

theorem Later.absent (h : Later lib config (Operation.BringsNo c) db db')
    (hzero : config.zeroValue ≠ c) (habsent : db.Absent c) : db'.Absent c := by
  induction h with
  | now => exact habsent
  | operation _ op hop ih => exact ih.exec hzero hop

/-- A ban removes a member with one canonical leaf. -/
theorem BanOutcome.absent {user : RecoveredUser} (h : BanOutcome config user db db')
    (hc : user.idCommitment = Js.bigIntToString c) (hzero : config.zeroValue ≠ c)
    (honly : db.Absent c ∨ db.OnlyLeaf user c) : db'.Absent c := by
  rcases honly with habsent | ⟨row, hleaves, htext, hfree⟩
  · exact h.oldOr.absent hzero habsent
  have hmem : row ∈ db.leafRows :=
    List.mem_of_mem_filter (hleaves.symm ▸ List.mem_singleton_self row : row ∈ db.leavesOf c)
  have hdenotes : ∀ r : IMerkleTreeNodeKey × String, r.2 = user.idCommitment →
      Js.stringToBigInt r.2 = some c := by
    intro r hr
    rw [hr, hc, Js.stringToBigInt_bigIntToString]
  have hfound : ∀ {d : NodeDoc}, db.findLeafByHash user.idCommitment = some d →
      row = (d.cur.key, d.cur.hash) := by
    intro d hfind
    obtain ⟨hd, -, hlevel, hhash⟩ := Db.findLeafByHash_eq_some hfind
    have hd' : (d.cur.key, d.cur.hash) ∈ db.leavesOf c := List.mem_filter.mpr
      ⟨mem_leafRows.mpr ⟨d.cur, List.mem_of_getElem? hd, hlevel, rfl⟩,
        decide_eq_true (hdenotes _ hhash)⟩
    rw [hleaves, List.mem_singleton] at hd'
    exact hd'.symm
  cases h with
  | unknown hfind _ =>
      obtain ⟨n, hn, hlevel, rfl⟩ := mem_leafRows.mp hmem
      have := Collection.findOne_eq_none.mp hfind n hn
      exact absurd ⟨hlevel, htext⟩ (of_decide_eq_false this)
  | conflict hfind hb hconf _ =>
      rw [hfound hfind] at hfree
      exact absurd hconf (hfree _ hb)
  | banned _ _ _ hrows =>
      rw [Db.absent_iff_leavesOf, Db.leavesOf, hrows]
      refine Collection.filter_modifyFirst_of_singleton (r := row) ?_ hleaves
        (decide_eq_true htext) ?_
      · intro r hr
        exact decide_eq_true (hdenotes r (of_decide_eq_true hr))
      · rw [Js.stringToBigInt_bigIntToString]
        simpa using hzero

theorem Recovers.idCommitment {text : String} {user : RecoveredUser}
    (h : Recovers lib config env text db user) :
    user.idCommitment = Js.bigIntToString (lib.poseidon [user.secret]) := by
  obtain ⟨m, rows, -, -, -, huser⟩ := h
  unfold getUserFromShares at huser
  obtain ⟨_, -, huser⟩ := Except.bind_ok_iff.mp huser
  obtain ⟨_, -, huser⟩ := Except.bind_ok_iff.mp huser
  obtain ⟨_, -, huser⟩ := Except.bind_ok_iff.mp huser
  obtain ⟨_, -, huser⟩ := Except.bind_ok_iff.mp huser
  obtain ⟨_, -, huser⟩ := Except.bind_ok_iff.mp huser
  obtain ⟨secret, -, huser⟩ := Except.bind_ok_iff.mp huser
  rw [← Except.ok.inj huser]

/-- A member whose spam was recovered while it had one canonical leaf is out, and stays out as long
    as no sync brings its commitment at a new position. -/
theorem banned_stays_out {text : String} {user : RecoveredUser}
    (hrec : Recovers lib config env text db user)
    (hzero : config.zeroValue ≠ lib.poseidon [user.secret])
    (honly : db.Absent (lib.poseidon [user.secret]) ∨ db.OnlyLeaf user (lib.poseidon [user.secret]))
    (hlater : Later lib config (Operation.BringsNo (lib.poseidon [user.secret]))
      ((Request.chat text).exec lib config env db).2 db') :
    db'.Absent (lib.poseidon [user.secret]) :=
  hlater.absent hzero (hrec.outcome.absent hrec.idCommitment hzero honly)

end

/-! ## A member of two groups -/

namespace Demo

/-- The commitment of the member with secret 3. -/
def commitment : String := Js.bigIntToString (sumHash [3])

def configTwoLevels : IZKServerConfig := { config 1 with merkleTreeLevels := 2 }

/-- The zero hashes of two levels and nothing else. -/
def seeded : Db := (seedZeros sumHash 0 2).exec {}

/-- The member joins two groups. -/
def joined : Db :=
  Operation.exec lib configTwoLevels (.appendUsers [⟨0, commitment⟩] "h")
    (Operation.exec lib configTwoLevels (.appendUsers [⟨0, commitment⟩] "g") seeded)

def joinedRoot : ℤ := sumHash [sumHash [sumHash [3], sumHash [3]], sumHash [0, 0]]

/-- Its first message is accepted. -/
def joinedAfterOne : Db :=
  (MessageHandlerService.handleValid lib configTwoLevels (env "a")
    (messageWith (proofFor joinedRoot 3 0 1 5) "0" "5")).exec joined

theorem later_joinedAfterOne :
    Later lib configTwoLevels (fun _ _ => True) seeded joinedAfterOne := by
  have hjoined : Later lib configTwoLevels (fun _ _ => True) seeded joined :=
    (Later.now.operation _ trivial).operation _ trivial
  have hchat := hjoined.operation (.chat (env "a") (chatWith (proofFor joinedRoot 3 0 1 5) "0" "5"))
    trivial
  have hexec := congrArg Prod.snd (exec_chatWith configTwoLevels (env "a") joined
    (plain_proofFor joinedRoot 3 0 1 5) (by decide +kernel : Js.Unescaped "0")
    (by decide +kernel : Js.Unescaped "5"))
  rwa [Operation.exec, hexec] at hchat

/-- A second message of the member with secret 3 recovers it. -/
theorem recovers_member {config : IZKServerConfig} {db : Db} (root : ℤ)
    (hspam : ((checkRules lib config (env "b") .RequestStats (some (proofFor root 3 0 1 6))
      (some (.str "0")) (some (.str "6"))).run db).1 = .ok true)
    (huser : getUserFromShares lib (some (proofFor root 3 0 1 6)) (some (.str "6"))
      (db.requestStats.filter fun r => r.epoch = some "0" ∧
        r.nullifier = Js.bigIntToString (pair 3 (pair 0 1))) = .ok (member lib 3)) :
    Recovers lib config (env "b") (chatWith (proofFor root 3 0 1 6) "0" "6") db (member lib 3) :=
  ⟨_, _, validateFormat_chatWith (plain_proofFor ..) (by decide +kernel) (by decide +kernel),
    Prod.ext hspam ((checkRules_readOnly _ _ _ _ _ _ _).exec_eq _), run_getRequestStats _ _ _ _ rfl,
    huser⟩

end Demo

/-- A member of two groups spams, its secret is recovered, and one of its leaves stays. -/
theorem banned_member_of_two_groups :
    ¬ ∀ (lib : Libraries) (config : IZKServerConfig) (env : CallEnv) (text : String) (db : Db)
      (user : RecoveredUser), config.zeroValue ≠ lib.poseidon [user.secret] →
      Later lib config (fun _ _ => True)
        ((seedZeros lib.poseidon config.zeroValue config.merkleTreeLevels).exec {}) db →
      Recovers lib config env text db user → ∀ db',
        Later lib config (fun _ _ => True) ((Request.chat text).exec lib config env db).2 db' →
          db'.Absent (lib.poseidon [user.secret]) := by
  intro h
  have hrec : Recovers Demo.lib Demo.configTwoLevels (Demo.env "b") _ Demo.joinedAfterOne _ :=
    Demo.recovers_member Demo.joinedRoot (by decide +kernel) (by decide +kernel)
  have hstays := h _ _ _ _ _ _ (by decide +kernel) Demo.later_joinedAfterOne hrec _ .now
  rw [Demo.exec_chatWith _ _ _ (Demo.plain_proofFor ..) (by decide +kernel) (by decide +kernel)]
    at hstays
  exact absurd hstays (by decide +kernel)

/-- A member of one group is out after its ban, and stays out when the group is synced again. -/
theorem banned_member_of_one_group :
    (Operation.exec Demo.lib (Demo.config 1) (.appendUsers [⟨0, Demo.commitment⟩] "g")
      ((Request.chat (Demo.chat 3 0 6 "0" "6")).exec Demo.lib (Demo.config 1) (Demo.env "b")
        (Demo.afterOne "5")).2).Absent (sumHash [3]) := by
  refine banned_stays_out (Demo.recovers_member _ (by decide +kernel) (by decide +kernel))
    (by decide +kernel) (Or.inr ⟨(⟨"g", 0, 0, 0⟩, Demo.commitment), by decide +kernel, rfl,
      by decide +kernel⟩) (.operation .now _ ?_)
  intro before user after husers _
  refine Or.inl ?_
  obtain ⟨rfl, rfl, rfl⟩ : before = [] ∧ user = ⟨0, Demo.commitment⟩ ∧ after = [] := by
    cases before with
    | nil =>
        obtain ⟨h, h'⟩ := List.cons.inj husers
        exact ⟨rfl, h.symm, h'.symm⟩
    | cons v before =>
        have := congrArg List.length husers
        simp at this
  show (Db.HasMember ((Request.chat (Demo.chat 3 0 6 "0" "6")).exec Demo.lib (Demo.config 1)
    (Demo.env "b") (Demo.afterOne "5")).2 "g" 0)
  rw [Demo.exec_chat _ _ _ (by decide +kernel) (by decide +kernel)]
  decide +kernel

end ZkChat
