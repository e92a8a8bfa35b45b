import ZkChat.Server.Db

set_option autoImplicit false

/-! # The tree collections

The statics of `merkle_tree.statics.ts`, `create` and `save` of `MerkleTreeNode`, and the seeding
of the zero hashes. -/

namespace ZkChat

/-- A `MerkleTreeNode` document in the hands of a call. -/
abbrev NodeDoc := Doc IMerkleTreeNode

namespace NodeDoc

def setHash (d : NodeDoc) (hash : String) : NodeDoc := { d with cur := { d.cur with hash } }

def setSiblingHash (d : NodeDoc) (hash : String) : NodeDoc :=
  { d with cur := { d.cur with siblingHash := some hash } }

def setParent (d : NodeDoc) (parent : NodeDoc) : NodeDoc :=
  { d with cur := { d.cur with parent := some parent.id } }

/-- What `save` writes over the stored fields: those that were changed since the document was
    loaded. The key is never assigned. -/
def merge (d : NodeDoc) (stored : IMerkleTreeNode) : IMerkleTreeNode :=
  { key := stored.key
    parent := if d.cur.parent = d.loaded.parent then stored.parent else d.cur.parent
    siblingHash :=
      if d.cur.siblingHash = d.loaded.siblingHash then stored.siblingHash else d.cur.siblingHash
    hash := if d.cur.hash = d.loaded.hash then stored.hash else d.cur.hash }

end NodeDoc

namespace Db

/-! ## The collection functions -/

def findByLevelAndIndex (db : Db) (level index : ℕ) : Option NodeDoc :=
  Collection.findOne (fun n => n.key.level = level ∧ n.key.index = index) db.treeNodes

def findLeafByGroupIdAndIndexInGroup (db : Db) (groupId : String) (indexInGroup : ℤ) :
    Option NodeDoc :=
  Collection.findOne
    (fun n => n.key.level = 0 ∧ n.key.indexInGroup = indexInGroup ∧ n.key.groupId = groupId)
    db.treeNodes

def findLeafByHash (db : Db) (hash : String) : Option NodeDoc :=
  Collection.findOne (fun n => n.key.level = 0 ∧ n.hash = hash) db.treeNodes

/-- The first node without a parent. -/
def findRoot (db : Db) : Option NodeDoc :=
  Collection.findOne (fun n => n.parent = none) db.treeNodes

def getTotalNumberOfLeaves (db : Db) : ℕ := db.treeNodes.countP (·.key.level = 0)

/-- `MerkleTreeNode.create`. -/
def createNode (db : Db) (n : IMerkleTreeNode) : Db := { db with treeNodes := db.treeNodes ++ [n] }

/-- `save()` of a loaded node. -/
def saveNode (db : Db) (d : NodeDoc) : Db :=
  { db with treeNodes := db.treeNodes.modify d.id d.merge }

/-- `create` on `MerkleTreeZero`: `level` has a unique index. -/
def createZero (db : Db) (z : IMerkleTreeZero) : Except Exn Unit × Db :=
  if db.treeZeros.any (·.level = z.level) then (.error .duplicateKey, db)
  else (.ok (), { db with treeZeros := db.treeZeros ++ [z] })

end Db

namespace MerkleTreeNode

def findByLevelAndIndex (level index : ℕ) : Server (Option NodeDoc) :=
  .query (·.findByLevelAndIndex level index)

def findLeafByGroupIdAndIndexInGroup (groupId : String) (indexInGroup : ℤ) :
    Server (Option NodeDoc) :=
  .query (·.findLeafByGroupIdAndIndexInGroup groupId indexInGroup)

def findLeafByHash (hash : String) : Server (Option NodeDoc) := .query (·.findLeafByHash hash)

def findRoot : Server (Option NodeDoc) := .query (·.findRoot)

def getTotalNumberOfLeaves : Server ℕ := .query (·.getTotalNumberOfLeaves)

def create (n : IMerkleTreeNode) : Server NodeDoc :=
  .await fun db => (.ok ⟨db.treeNodes.length, n, n⟩, db.createNode n)

def save (d : NodeDoc) : Server NodeDoc :=
  .await fun db => (.ok { d with loaded := d.cur }, db.saveNode d)

end MerkleTreeNode

namespace MerkleTreeZero

def findZeros : Server (List IMerkleTreeZero) := .query (·.treeZeros)

def create (z : IMerkleTreeZero) : Server Unit := .await (·.createZero z)

end MerkleTreeZero

/-! ## `seedZeros` -/

section Seed

variable (poseidon : List ℤ → ℤ)

/-- The loop of `seedZeros`: `n` levels are left, `zeroValue` is the hash of the level before. -/
def seedLevels : ℕ → ℕ → ℤ → Server Unit
  | 0, _, _ => pure ()
  | n + 1, level, zeroValue => do
      let zeroValue := if level = 0 then zeroValue else poseidon [zeroValue, zeroValue]
      MerkleTreeZero.create { level, hash := Js.bigIntToString zeroValue }
      seedLevels n (level + 1) zeroValue

def seedZeros (zeroValue : ℤ) (treeLevels : ℕ) : Server Unit := do
  let zeroHashes ← MerkleTreeZero.findZeros
  if zeroHashes.length = 0 then seedLevels poseidon treeLevels 0 zeroValue else pure ()

end Seed

end ZkChat
