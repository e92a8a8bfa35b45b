import ZkChat.Server.MerkleTree

set_option autoImplicit false

/-! # `UserService`

The group tree as the server keeps it: appending members, removing them by their index in a group,
overwriting a leaf, banning. The two walks to the root are written as in `user.service.ts`: an
append looks siblings up (or takes the zero hash of the level), an update uses the sibling hash
that is cached in the node. -/

namespace ZkChat

structure IGroupMember where
  index : ℤ
  identityCommitment : String
deriving DecidableEq

section

variable (poseidon : List ℤ → ℤ) (config : IZKServerConfig)

namespace UserService

def getRoot : Server String := do
  match ← MerkleTreeNode.findRoot with
  | some root => pure root.cur.hash
  | none => throw (.text "Root not found")

/-- `this.hasher.poseidonHash([BigInt(left), BigInt(right)]).toString()`. -/
def hashPair (left right : String) : Except Exn String := do
  let l ← Js.bigIntOfText left
  let r ← Js.bigIntOfText right
  pure (Js.bigIntToString (poseidon [l, r]))

/-! ## Appending -/

/-- A left node: its sibling does not exist yet, so it is given the zero hash of the level. The
    parent is updated, or created with this node's group. -/
def appendLeft (zeros : List IMerkleTreeZero) (groupId : String) (level currentIndex : ℕ)
    (currentNode : NodeDoc) : Server NodeDoc :=
  match zeros[level]? with
  | none => throw .typeError
  | some zero => do
      let currentNode := currentNode.setSiblingHash zero.hash
      let found ← MerkleTreeNode.findByLevelAndIndex (level + 1) (currentIndex / 2)
      let hash ← Prog.ofExcept (hashPair poseidon currentNode.cur.hash zero.hash)
      let parentNode ← match found with
        | some parentNode => MerkleTreeNode.save (parentNode.setHash hash)
        | none =>
            MerkleTreeNode.create
              { key :=
                  { groupId, level := level + 1, index := currentIndex / 2, indexInGroup := -1 }
                hash }
      let _ ← MerkleTreeNode.save (currentNode.setParent parentNode)
      pure parentNode

/-- A right node: its sibling and its parent exist. -/
def appendRight (level currentIndex : ℕ) (currentNode : NodeDoc) : Server NodeDoc := do
  match ← MerkleTreeNode.findByLevelAndIndex level (currentIndex - 1) with
  | none => throw .typeError
  | some siblingNode =>
      let currentNode := currentNode.setSiblingHash siblingNode.cur.hash
      let siblingNode := siblingNode.setSiblingHash currentNode.cur.hash
      let found ← MerkleTreeNode.findByLevelAndIndex (level + 1) (currentIndex / 2)
      let hash ← Prog.ofExcept (hashPair poseidon siblingNode.cur.hash currentNode.cur.hash)
      match found with
      | none => throw .typeError
      | some parentNode =>
          let parentNode := parentNode.setHash hash
          let _ ← MerkleTreeNode.save (currentNode.setParent parentNode)
          let parentNode ← MerkleTreeNode.save parentNode
          let _ ← MerkleTreeNode.save siblingNode
          pure parentNode

/-- The body of the loop over the levels; the result is the parent, the node of the next level. -/
def appendLevel (zeros : List IMerkleTreeZero) (groupId : String) (level currentIndex : ℕ)
    (currentNode : NodeDoc) : Server NodeDoc :=
  if currentIndex % 2 = 0 then appendLeft poseidon zeros groupId level currentIndex currentNode
  else appendRight poseidon level currentIndex currentNode

/-- The walk from a new leaf to the root; the first argument counts the levels that are left. -/
def appendLevels (zeros : List IMerkleTreeZero) (groupId : String) :
    ℕ → ℕ → ℕ → NodeDoc → Server Unit
  | 0, _, _, _ => pure ()
  | n + 1, level, currentIndex, currentNode => do
      let parentNode ← appendLevel poseidon zeros groupId level currentIndex currentNode
      appendLevels zeros groupId n (level + 1) (currentIndex / 2) parentNode

/-- The body of the loop for a member that is not in the tree yet. -/
def appendUser (zeros : List IMerkleTreeZero) (groupId : String) (user : IGroupMember) :
    Server Unit := do
  let currentIndex ← MerkleTreeNode.getTotalNumberOfLeaves
  if 2 ^ config.merkleTreeLevels ≤ currentIndex then throw (.text "The tree is full")
  else do
    let currentNode ← MerkleTreeNode.create
      { key := { index := currentIndex, groupId, level := 0, indexInGroup := user.index }
        hash := user.identityCommitment }
    appendLevels poseidon zeros groupId config.merkleTreeLevels 0 currentIndex currentNode

/-- One member: nothing to do when a leaf of this group has the member's index. -/
def appendMember (zeros : List IMerkleTreeZero) (groupId : String) (user : IGroupMember) :
    Server Unit := do
  match ← MerkleTreeNode.findLeafByGroupIdAndIndexInGroup groupId user.index with
  | some _ => pure ()
  | none => appendUser poseidon config zeros groupId user

/-- The loop over the members. -/
def appendMembers (zeros : List IMerkleTreeZero) (groupId : String) :
    List IGroupMember → Server String
  | [] => pure "Done"
  | user :: users => do
      appendMember poseidon config zeros groupId user
      appendMembers zeros groupId users

def appendUsers (users : List IGroupMember) (groupId : String) : Server String :=
  if users.length = 0 then pure ""
  else do
    let zeros ← MerkleTreeZero.findZeros
    if zeros.length = 0 then throw (.text "The zero hashes have not yet been created")
    else appendMembers poseidon config zeros groupId users

/-! ## Updating a leaf -/

/-- The `while` loop of `updateUser`. A parent's level is one more than its child's, so the number
    of levels bounds the iterations; a longer chain would be cut off. -/
def updateParents : ℕ → NodeDoc → Server Unit
  | fuel, node =>
    match node.cur.parent, fuel with
    | none, _ => pure ()
    | some _, 0 => throw .cutOff
    | some _, fuel + 1 => do
        let sibling ← Prog.ofExcept (Js.bigIntOfField node.cur.siblingHash)
        let hash ← Prog.ofExcept (Js.bigIntOfText node.cur.hash)
        match ← MerkleTreeNode.findByLevelAndIndex (node.cur.key.level + 1)
            (node.cur.key.index / 2) with
        | none => throw .typeError
        | some parent =>
            let childrenHashes :=
              if node.cur.key.index % 2 = 0 then [hash, sibling] else [sibling, hash]
            let parent ← MerkleTreeNode.save
              (parent.setHash (Js.bigIntToString (poseidon childrenHashes)))
            updateParents fuel parent

def updateUser (leafHash : String)
    (newValue : String := Js.bigIntToString config.zeroValue) : Server Unit := do
  match ← MerkleTreeNode.findLeafByHash leafHash with
  | none =>
      throw (.text ("The user with identity commitment " ++ leafHash ++ " doesn't exists"))
  | some node =>
      let node ← MerkleTreeNode.save (node.setHash newValue)
      updateParents poseidon config.merkleTreeLevels node

/-- The loop of `removeUsersByIndexes`. -/
def removeEach (groupId : String) : List ℤ → Server String
  | [] => pure "Done"
  | index :: indexes => do
      match ← MerkleTreeNode.findLeafByGroupIdAndIndexInGroup groupId index with
      | none => throw (.error "The node with the given index does not exist")
      | some node =>
          updateUser poseidon config node.cur.hash
          removeEach groupId indexes

def removeUsersByIndexes (indexes : List ℤ) (groupId : String) : Server String :=
  if indexes.length = 0 then pure ""
  else do
    let zeros ← MerkleTreeZero.findZeros
    if zeros.length = 0 then throw (.text "The zero hashes have not yet been created")
    else removeEach poseidon config groupId indexes

/-! ## Banning -/

/-- `bannedUser.save()`: all three fields have a unique index. -/
def saveBannedUser (b : IBannedUser) : Server Unit := .await fun db =>
  if db.bannedUsers.any fun x =>
      x.idCommitment = b.idCommitment ∨ x.leafIndex = b.leafIndex ∨ x.secret = b.secret
  then (.error .duplicateKey, db)
  else (.ok (), { db with bannedUsers := db.bannedUsers ++ [b] })

/-- Bans a user with the given identity commitment. -/
def banUser (idCommitment : String) (secret : ℤ) : Server String := do
  match ← MerkleTreeNode.findLeafByHash idCommitment with
  | none => throw (.text "The user doesn't exists")
  | some treeNode =>
      saveBannedUser
        { idCommitment, leafIndex := treeNode.cur.key.index, secret := Js.bigIntToString secret }
      pure idCommitment

end UserService

end

end ZkChat
