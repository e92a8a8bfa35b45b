import ZkChat.Server.MessageHandler
import ZkChat.Server.Update

set_option autoImplicit false

/-! # What a ban does

`banUser`, `updateUser` and the announcement, as the spam branch calls them for the user it has
recovered. The three of them have three outcomes: no leaf has the text of the commitment, a row of
`BannedUser` is in the way, or the user is banned and one leaf is set to zero. -/

namespace ZkChat

open Prog

/-- The row that bans the user whose leaf has this index. -/
def RecoveredUser.row (user : RecoveredUser) (leafIndex : ℕ) : IBannedUser :=
  { idCommitment := user.idCommitment, leafIndex, secret := Js.bigIntToString user.secret }

/-- The rows agree in one of the fields with a unique index. -/
def IBannedUser.Conflicts (a b : IBannedUser) : Prop :=
  a.idCommitment = b.idCommitment ∨ a.leafIndex = b.leafIndex ∨ a.secret = b.secret

instance (a b : IBannedUser) : Decidable (a.Conflicts b) :=
  inferInstanceAs (Decidable (_ ∨ _ ∨ _))

/-- The outcomes of banning `user` in the state `db`. -/
inductive BanOutcome (config : IZKServerConfig) (user : RecoveredUser) (db db' : Db) : Prop
  | unknown (hfind : db.findLeafByHash user.idCommitment = none) (h : db' = db)
  | conflict {d : NodeDoc} {b : IBannedUser} (hfind : db.findLeafByHash user.idCommitment = some d)
      (hb : b ∈ db.bannedUsers) (hconf : b.Conflicts (user.row d.cur.key.index)) (h : db' = db)
  | banned {d : NodeDoc} (hfind : db.findLeafByHash user.idCommitment = some d)
      (hnew : ∀ b ∈ db.bannedUsers, ¬ b.Conflicts (user.row d.cur.key.index))
      (hbanned : db'.bannedUsers = db.bannedUsers ++ [user.row d.cur.key.index])
      (hleaves : db'.leafRows = Collection.modifyFirst (fun r => r.2 = user.idCommitment)
        (fun r => (r.1, Js.bigIntToString config.zeroValue)) db.leafRows)

variable {lib : Libraries} {config : IZKServerConfig} {user : RecoveredUser} {db : Db}

theorem run_banUser_unknown (hfind : db.findLeafByHash user.idCommitment = none) :
    (UserService.banUser user.idCommitment user.secret).run db
      = (.error (.text "The user doesn't exists"), db) := by
  unfold UserService.banUser MerkleTreeNode.findLeafByHash
  rw [run_query_bind, hfind, run_throw]

theorem run_saveBannedUser (b : IBannedUser) (db : Db) :
    (UserService.saveBannedUser b).run db
      = if ∃ x ∈ db.bannedUsers, x.Conflicts b then (.error .duplicateKey, db)
        else (.ok (), { db with bannedUsers := db.bannedUsers ++ [b] }) := by
  have hany : (db.bannedUsers.any fun x => x.idCommitment = b.idCommitment ∨
      x.leafIndex = b.leafIndex ∨ x.secret = b.secret) = true ↔
        ∃ x ∈ db.bannedUsers, x.Conflicts b := by
    simp only [List.any_eq_true, decide_eq_true_eq, IBannedUser.Conflicts]
  unfold UserService.saveBannedUser
  rw [run_await]
  exact if_congr hany rfl rfl

theorem run_banUser {d : NodeDoc} (hfind : db.findLeafByHash user.idCommitment = some d) :
    (UserService.banUser user.idCommitment user.secret).run db
      = if ∃ b ∈ db.bannedUsers, b.Conflicts (user.row d.cur.key.index)
        then (.error .duplicateKey, db)
        else (.ok user.idCommitment,
          { db with bannedUsers := db.bannedUsers ++ [user.row d.cur.key.index] }) := by
  have hsave := run_saveBannedUser (user.row d.cur.key.index) db
  unfold UserService.banUser MerkleTreeNode.findLeafByHash
  rw [run_query_bind, hfind]
  split at hsave
  · next hconf =>
      rw [if_pos hconf]
      exact run_bind_of_error hsave
  · next hnew =>
      rw [if_neg hnew]
      exact run_bind_of_ok hsave

/-- The spam branch, once it knows whom to ban. -/
theorem banRecovered_outcome (lib : Libraries) (config : IZKServerConfig) (user : RecoveredUser)
    (db : Db) :
    BanOutcome config user db
      ((MessageHandlerService.banRecovered lib config user).exec db) := by
  unfold MessageHandlerService.banRecovered exec
  cases hfind : db.findLeafByHash user.idCommitment with
  | none =>
      rw [run_bind_of_error (run_banUser_unknown hfind)]
      exact .unknown hfind rfl
  | some d =>
      have hban := run_banUser hfind
      split at hban
      · next hconf =>
          obtain ⟨b, hb, hconf⟩ := hconf
          rw [run_bind_of_error hban]
          exact .conflict hfind hb hconf rfl
      · next hnew =>
          rw [run_bind_of_ok hban]
          set db₁ : Db := { db with bannedUsers := db.bannedUsers ++ [user.row d.cur.key.index] }
          -- the leaf is written before the walk of the update can fail
          have hrows := updateUser_leafRows lib.poseidon config user.idCommitment
            (Js.bigIntToString config.zeroValue) db₁
          have honly := (updateUser_onlyTree lib.poseidon config user.idCommitment
            (Js.bigIntToString config.zeroValue)).exec_onlyTree db₁
          rw [exec] at hrows honly
          cases hupdate : (UserService.updateUser lib.poseidon config user.idCommitment
              (Js.bigIntToString config.zeroValue)).run db₁ with
          | mk r db₂ =>
              rw [hupdate] at hrows honly
              have hbanned : db₂.bannedUsers = db₁.bannedUsers := by
                obtain ⟨_, rfl⟩ := honly
                rfl
              have hnone : ∀ b ∈ db.bannedUsers, ¬ b.Conflicts (user.row d.cur.key.index) :=
                fun b hb hconf => hnew ⟨b, hb, hconf⟩
              cases r with
              | error e =>
                  rw [run_bind_of_error hupdate]
                  exact .banned hfind hnone hbanned hrows
              | ok u =>
                  rw [run_bind_of_ok hupdate]
                  exact .banned hfind hnone hbanned hrows

end ZkChat
