import ZkChat.Server.Db
import ZkChat.Server.Libraries

set_option autoImplicit false

/-! # Request stats

The rows that spam and duplicate detection are built on. Chat messages and key exchange requests
have a collection each; the statics of the two models are the same code. -/

namespace ZkChat

/-- The two models with the statics of `request_stats.statics.ts`. -/
inductive StatsModel where
  | RequestStats
  | KeyExchangeRequestStats
deriving DecidableEq

namespace Db

def stats (db : Db) : StatsModel → List IRequestStats
  | .RequestStats => db.requestStats
  | .KeyExchangeRequestStats => db.keyExchangeRequestStats

def createStats (db : Db) (r : IRequestStats) : StatsModel → Db
  | .RequestStats => { db with requestStats := db.requestStats ++ [r] }
  | .KeyExchangeRequestStats =>
      { db with keyExchangeRequestStats := db.keyExchangeRequestStats ++ [r] }

theorem stats_createStats (db : Db) (r : IRequestStats) (model model' : StatsModel) :
    (db.createStats r model).stats model'
      = db.stats model' ++ if model' = model then [r] else [] := by
  cases model <;> cases model' <;> simp [stats, createStats]

end Db

/-! ## The proof's fields -/

/-- `zk_proof.snarkProof.publicSignals[name]`. -/
def publicSignal (zk_proof : Option Json) (name : String) : Except Exn (Option Json) :=
  Js.path zk_proof ["snarkProof", "publicSignals", name]

theorem publicSignal_eq {zk_proof : Option Json} {name : String} :
    publicSignal zk_proof name
      = (Js.prop zk_proof "snarkProof").bind fun p => Js.path p ["publicSignals", name] := rfl

def getNullifierFromFullProof (zk_proof : Option Json) : Except Exn String := do
  Js.toText (← publicSignal zk_proof "internalNullifier")

def getYShareFromFullProof (zk_proof : Option Json) : Except Exn String := do
  Js.toText (← publicSignal zk_proof "yShare")

/-! ## The statics -/

namespace StatsModel

variable (lib : Libraries) (model : StatsModel)

def getSharesForEpochForUser (epoch : Option Json) (nullifier : String) :
    Server (List IRequestStats) := do
  let matchesEpoch ← Prog.ofExcept (Mongoose.filter lib epoch)
  .query fun db => (db.stats model).filter fun r => matchesEpoch r.epoch && r.nullifier = nullifier

def isDuplicateRequest (epoch : Option Json) (nullifier : String) (xShare : Option Json)
    (yShare : String) : Server Bool := do
  let matchesEpoch ← Prog.ofExcept (Mongoose.filter lib epoch)
  let matchesXShare ← Prog.ofExcept (Mongoose.filter lib xShare)
  .query fun db => (db.stats model).any fun r =>
    matchesEpoch r.epoch && r.nullifier = nullifier && matchesXShare r.xShare && r.yShare = yShare

/-- The rows that the `$match` stage of `isSpamRequest` lets through. -/
def counted (epoch : Option Json) (nullifier : String) (r : IRequestStats) : Bool :=
  Mongoose.matchField lib epoch r.epoch && r.nullifier = nullifier

/-- The `$count` stage yields no document when nothing matched. -/
def isSpamRequest (epoch : Option Json) (nullifier : String) (numRequests : ℕ) : Server Bool :=
  .query fun db =>
    let num_requests := (db.stats model).countP (counted lib epoch nullifier)
    num_requests ≠ 0 ∧ numRequests ≤ num_requests

def create (nullifier : String) (epoch xShare : Option Json) (yShare : String) : Server Unit := do
  let epoch ← Prog.ofExcept (Mongoose.stringPath epoch)
  let xShare ← Prog.ofExcept (Mongoose.stringPath xShare)
  .modify fun db => db.createStats { nullifier, epoch, xShare, yShare } model

/-! ## The services over them -/

variable (zk_proof epoch x_share : Option Json)

/-- `saveMessage` of both services. -/
def saveMessage : Server Unit := do
  let nullifier ← Prog.ofExcept (getNullifierFromFullProof zk_proof)
  let yShare ← Prog.ofExcept (getYShareFromFullProof zk_proof)
  model.create nullifier epoch x_share yShare

/-- `getRequestStats` of both services. -/
def getRequestStats : Server (List IRequestStats) := do
  let nullifier ← Prog.ofExcept (getNullifierFromFullProof zk_proof)
  model.getSharesForEpochForUser lib epoch nullifier

/-- `isDuplicate` of both services. -/
def isDuplicate : Server Bool := do
  let nullifier ← Prog.ofExcept (getNullifierFromFullProof zk_proof)
  let yShare ← Prog.ofExcept (getYShareFromFullProof zk_proof)
  model.isDuplicateRequest lib epoch nullifier x_share yShare

/-- `isSpam` of both services. -/
def isSpam (spamThreshold : ℕ) : Server Bool := do
  let nullifier ← Prog.ofExcept (getNullifierFromFullProof zk_proof)
  model.isSpamRequest lib epoch nullifier spamThreshold

end StatsModel

end ZkChat
