import ZkChat.Server.Expulsion

set_option autoImplicit false

/-! # Appending to a tree whose hashes may be wrong

A ban that trusted an outdated cache leaves inner hashes that are not those of any tree, and a later
sync appends to that tree all the same. What an append needs in order to return is less than
`TreeInv`: the nodes it looks up are there, every hash is a text that `BigInt` accepts, and the zero
hashes are seeded (`Db.Appendable`). Appends keep that (`Db.Appendable.appendUser`), and so does
every action of a chat message (`handleChatMessage_keeps`). -/

namespace ZkChat

open HashTree Prog UserService

/-- The texts that `BigInt` accepts. -/
def Js.BigIntText (text : String) : Prop := ∃ v, Js.stringToBigInt text = some v

instance : DecidablePred Js.BigIntText := fun _ => decidable_of_iff _ Option.isSome_iff_exists

theorem Js.bigIntText_bigIntToString (v : ℤ) : Js.BigIntText (Js.bigIntToString v) :=
  ⟨v, Js.stringToBigInt_bigIntToString v⟩

namespace Db

/-- There are nodes at the places `occ`. -/
def Holds (occ : ℕ → ℕ → Prop) (db : Db) : Prop := ∀ l i, occ l i → ∃ id, db.HasKey id l i

/-- Every hash is a text that `BigInt` accepts. -/
def Numeric (db : Db) : Prop := ∀ id r, db.HasNode id r → Js.BigIntText r.hash

end Db

/-- What an append needs of the store. -/
structure Db.Appendable (poseidon : List ℤ → ℤ) (config : IZKServerConfig) (db : Db) : Prop where
  places : db.Holds (shape config.merkleTreeLevels db.getTotalNumberOfLeaves)
  numeric : db.Numeric
  seeded : Seeded poseidon config db

/-- A step after which the nodes are where they were and the hashes still denote integers. -/
structure Keeps (db db' : Db) : Prop where
  key : ∀ {id l i}, db.HasKey id l i → db'.HasKey id l i
  numeric : db.Numeric → db'.Numeric
  treeZeros : db'.treeZeros = db.treeZeros

namespace Keeps

theorem refl (db : Db) : Keeps db db := ⟨id, id, rfl⟩

theorem trans {a b c : Db} (h : Keeps a b) (h' : Keeps b c) : Keeps a c :=
  ⟨fun hk => h'.key (h.key hk), fun hn => h'.numeric (h.numeric hn), h'.treeZeros.trans h.treeZeros⟩

/-- A step that touches neither collection of the tree. -/
theorem of_eq {db db' : Db} (h : db'.treeNodes = db.treeNodes) (hz : db'.treeZeros = db.treeZeros) :
    Keeps db db' := by
  refine ⟨?_, ?_, hz⟩
  · intro id l i ⟨r, hr, hkey⟩
    exact ⟨r, by rwa [Db.HasNode, h], hkey⟩
  · intro hn id r hr
    exact hn id r (by rwa [Db.HasNode, ← h])

theorem saveNode {d : NodeDoc} (h : Js.BigIntText d.cur.hash) (db : Db) :
    Keeps db (db.saveNode d) := by
  refine ⟨Db.hasKey_saveNode.mpr, ?_, rfl⟩
  intro hn id r hr
  rw [Db.HasNode, Db.saveNode, List.getElem?_modify] at hr
  cases hs : db.treeNodes[id]? with
  | none => simp [hs] at hr
  | some s =>
      rw [hs] at hr
      simp only [Option.map_eq_map, Option.map_some, Option.some.injEq] at hr
      subst hr
      split
      · -- a save that did not touch the hash leaves the one that is stored
        simp only [NodeDoc.merge]
        split
        · exact hn id s hs
        · exact h
      · exact hn id s hs

theorem createNode {r : IMerkleTreeNode} (h : Js.BigIntText r.hash) (db : Db) :
    Keeps db (db.createNode r) := by
  refine ⟨Db.HasKey.createNode, ?_, rfl⟩
  intro hn id s hs
  rcases Db.hasNode_createNode.mp hs with hs | ⟨-, rfl⟩
  · exact hn id s hs
  · exact h

end Keeps

variable {poseidon : List ℤ → ℤ} {config : IZKServerConfig} {db db' : Db}

theorem Db.Holds.keeps {occ : ℕ → ℕ → Prop} (h : db.Holds occ) (hk : Keeps db db') :
    db'.Holds occ := by
  intro l i hocc
  obtain ⟨id, hid⟩ := h l i hocc
  exact ⟨id, hk.key hid⟩

/-- A search at a place that is held finds a node, whose hash is a number. -/
theorem Db.Holds.find {occ : ℕ → ℕ → Prop} (h : db.Holds occ) (hn : db.Numeric) {l i : ℕ}
    (hocc : occ l i) : ∃ d, db.findByLevelAndIndex l i = some d ∧ Js.BigIntText d.cur.hash := by
  obtain ⟨id, hid⟩ := h l i hocc
  obtain ⟨d, hd⟩ := Db.findByLevelAndIndex_isSome hid
  exact ⟨d, hd, hn d.id d.cur (Db.findByLevelAndIndex_eq_some hd).1⟩

/-- As long as no leaf comes or goes, such a step leaves an appendable store appendable. -/
theorem Db.Appendable.keeps (h : db.Appendable poseidon config) (hk : Keeps db db')
    (hcount : db'.leafRows.length = db.leafRows.length) : db'.Appendable poseidon config := by
  refine ⟨?_, hk.numeric h.numeric, hk.treeZeros.trans h.seeded⟩
  rw [getTotalNumberOfLeaves_eq, hcount, ← getTotalNumberOfLeaves_eq]
  exact h.places.keeps hk

theorem Db.Appendable.empty (hseeded : Seeded poseidon config db) (hnodes : db.treeNodes = []) :
    db.Appendable poseidon config := by
  refine ⟨?_, ?_, hseeded⟩
  · rintro l i ⟨-, hi⟩
    simp [Db.getTotalNumberOfLeaves, hnodes] at hi
  · intro id r hr
    simp [Db.HasNode, hnodes] at hr

/-! ## One level of an append -/

theorem hashPair_ok_text (poseidon : List ℤ → ℤ) {a b : String} (ha : Js.BigIntText a)
    (hb : Js.BigIntText b) :
    ∃ x, hashPair poseidon a b = .ok x ∧ Js.BigIntText x := by
  obtain ⟨v, hv⟩ := ha
  obtain ⟨w, hw⟩ := hb
  exact ⟨_, hashPair_ok hv hw, Js.bigIntText_bigIntToString _⟩

/-- At a left node. -/
theorem appendLeft_ok {zeros : List IMerkleTreeZero} {zero : IMerkleTreeZero} (groupId : String)
    {l i : ℕ} {d : NodeDoc} (hd : Js.BigIntText d.cur.hash) (hzero : zeros[l]? = some zero)
    (hz : Js.BigIntText zero.hash) (db : Db) :
    ∃ d' db', (appendLeft poseidon zeros groupId l i d).run db = (.ok d', db') ∧ Keeps db db' ∧
      Js.BigIntText d'.cur.hash ∧ ∃ id, db'.HasKey id (l + 1) (i / 2) := by
  obtain ⟨x, hhash, hx⟩ := hashPair_ok_text poseidon hd hz
  cases hfound : db.findByLevelAndIndex (l + 1) (i / 2) with
  | some p =>
      have hkeep := (Keeps.saveNode (d := p.setHash x) hx db).trans
        (Keeps.saveNode (d := (d.setSiblingHash zero.hash).setParent
          { p.setHash x with loaded := (p.setHash x).cur }) hd _)
      exact ⟨_, _, run_appendLeft_found hzero hhash hfound, hkeep, hx, p.id,
        hkeep.key (hasKey_of_find hfound)⟩
  | none =>
      set r : IMerkleTreeNode :=
        { key := { groupId, level := l + 1, index := i / 2, indexInGroup := -1 }, hash := x }
      have hlink := Keeps.saveNode (d := (d.setSiblingHash zero.hash).setParent
        ⟨db.treeNodes.length, r, r⟩) hd (db.createNode r)
      exact ⟨_, _, run_appendLeft_created hzero hhash hfound rfl,
        (Keeps.createNode (r := r) hx db).trans hlink, hx, db.treeNodes.length,
        hlink.key ⟨r, Db.hasNode_createNode.mpr (Or.inr ⟨rfl, rfl⟩), rfl, rfl⟩⟩

/-- At a right node, whose sibling and parent are there. -/
theorem appendRight_ok {l i : ℕ} {d s p : NodeDoc} (hd : Js.BigIntText d.cur.hash)
    (hs : db.findByLevelAndIndex l (i - 1) = some s) (hshash : Js.BigIntText s.cur.hash)
    (hp : db.findByLevelAndIndex (l + 1) (i / 2) = some p) :
    ∃ d' db', (appendRight poseidon l i d).run db = (.ok d', db') ∧ Keeps db db' ∧
      Js.BigIntText d'.cur.hash ∧ ∃ id, db'.HasKey id (l + 1) (i / 2) := by
  obtain ⟨x, hhash, hx⟩ := hashPair_ok_text poseidon hshash hd
  have hcur := Keeps.saveNode (d := (d.setSiblingHash s.cur.hash).setParent (p.setHash x)) hd db
  have hparent := Keeps.saveNode (d := p.setHash x) hx
    (db.saveNode ((d.setSiblingHash s.cur.hash).setParent (p.setHash x)))
  have hkeep := (hcur.trans hparent).trans
    (Keeps.saveNode (d := s.setSiblingHash d.cur.hash) hshash _)
  exact ⟨_, _, run_appendRight hs hhash hp, hkeep, hx, p.id, hkeep.key (hasKey_of_find hp)⟩

variable {n l : ℕ} {zeros : List IMerkleTreeZero} {d : NodeDoc}

theorem appendLevel_ok (groupId : String)
    (hholds : db.Holds (walkOcc config.merkleTreeLevels n l)) (hn : db.Numeric)
    (hd : Js.BigIntText d.cur.hash) (hlt : l < config.merkleTreeLevels)
    (hzero : ∃ zero, zeros[l]? = some zero ∧ Js.BigIntText zero.hash) :
    ∃ d' db', (appendLevel poseidon zeros groupId l (n / 2 ^ l) d).run db = (.ok d', db') ∧
      Keeps db db' ∧ Js.BigIntText d'.cur.hash ∧ ∃ id, db'.HasKey id (l + 1) (n / 2 ^ l / 2) := by
  unfold appendLevel
  split
  · obtain ⟨zero, hzero, hz⟩ := hzero
    exact appendLeft_ok groupId hd hzero hz db
  · next hodd =>
      obtain ⟨s, hs, hshash⟩ := hholds.find hn (Or.inl (shape_sibling_of_odd hlt.le hodd))
      obtain ⟨p, hp, -⟩ := hholds.find hn (Or.inl (shape_parent_of_odd hlt hodd))
      rw [← div_pow_succ] at hp
      exact appendRight_ok hd hs hshash hp

/-- The loop: from any level the walk reaches the top. -/
theorem appendLevels_ok (groupId : String)
    (hzeros : ∀ k < config.merkleTreeLevels, ∃ zero, zeros[k]? = some zero ∧
      Js.BigIntText zero.hash) (k : ℕ) (hk : l + k = config.merkleTreeLevels)
    (hholds : db.Holds (walkOcc config.merkleTreeLevels n l)) (hn : db.Numeric)
    (hd : Js.BigIntText d.cur.hash) :
    ∃ db', (appendLevels poseidon zeros groupId k l (n / 2 ^ l) d).run db = (.ok (), db') ∧
      Keeps db db' ∧ db'.Holds (walkOcc config.merkleTreeLevels n config.merkleTreeLevels) := by
  induction k generalizing l d db with
  | zero =>
      obtain rfl : l = config.merkleTreeLevels := by omega
      exact ⟨db, rfl, .refl db, hholds⟩
  | succ k ih =>
      -- the level adds the one node of the path that the next level needs
      obtain ⟨d₁, db₁, hrun, hkeep, hd₁, id, hid⟩ :=
        appendLevel_ok groupId hholds hn hd (by omega) (hzeros l (by omega))
      rw [div_pow_succ] at hid
      have hholds₁ : db₁.Holds (walkOcc config.merkleTreeLevels n (l + 1)) := by
        intro j i hocc
        rcases walkOcc_succ.mp hocc with hocc | ⟨rfl, rfl⟩
        · exact hholds.keeps hkeep j i hocc
        · exact ⟨id, hid⟩
      obtain ⟨db', hrest, hkeep', hholds'⟩ := ih (by omega) hholds₁ (hkeep.numeric hn) hd₁
      refine ⟨db', ?_, hkeep.trans hkeep', hholds'⟩
      rw [UserService.appendLevels, run_bind_of_ok hrun, div_pow_succ, hrest]

/-! ## One member -/

/-- A member whose commitment denotes an integer is appended as long as there is room. -/
theorem Db.Appendable.appendUser (h : db.Appendable poseidon config) (groupId : String)
    {user : IGroupMember} (huser : user.Numeric)
    (hroom : db.getTotalNumberOfLeaves < 2 ^ config.merkleTreeLevels) :
    ∃ db', (appendUser poseidon config db.treeZeros groupId user).run db = (.ok (), db') ∧
      db'.Appendable poseidon config ∧
      db'.leafRows = db.leafRows ++
        [({ groupId, level := 0, indexInGroup := user.index, index := db.getTotalNumberOfLeaves },
          user.identityCommitment)] ∧
      db'.treeZeros = db.treeZeros := by
  set n := db.getTotalNumberOfLeaves with hcount
  set r := newLeaf groupId user n
  have hkeep := Keeps.createNode (r := r) huser db
  have hholds : (db.createNode r).Holds (walkOcc config.merkleTreeLevels n 0) := by
    rintro l i (hocc | ⟨hl, hi⟩)
    · exact h.places.keeps hkeep l i hocc
    · obtain rfl : l = 0 := by omega
      exact ⟨_, r, Db.hasNode_createNode.mpr (Or.inr ⟨rfl, rfl⟩), rfl, by simpa [r] using hi.symm⟩
  have hzeros : ∀ k < config.merkleTreeLevels, ∃ zero, db.treeZeros[k]? = some zero ∧
      Js.BigIntText zero.hash := by
    intro k hk
    obtain ⟨zero, hzero, hz⟩ := h.seeded.zero hk
    exact ⟨zero, hzero, _, hz⟩
  obtain ⟨db', hrun, hkeep', hholds'⟩ := appendLevels_ok (d := ⟨db.treeNodes.length, r, r⟩) groupId
    hzeros config.merkleTreeLevels (Nat.zero_add _) hholds (hkeep.numeric h.numeric) huser
  rw [pow_zero, Nat.div_one] at hrun
  have hrun' : (UserService.appendUser poseidon config db.treeZeros groupId user).run db
      = (.ok (), db') := (run_appendUser_of_room hcount.symm hroom).trans hrun
  have hrows := appendUser_leafRows poseidon db.treeZeros groupId user hroom
  rw [wp, hrun'] at hrows
  have hkept := hkeep.trans hkeep'
  have htotal : db'.getTotalNumberOfLeaves = n + 1 := by
    rw [getTotalNumberOfLeaves_eq, hrows, List.length_append, ← getTotalNumberOfLeaves_eq,
      List.length_singleton]
  refine ⟨db', hrun', ⟨?_, hkept.numeric h.numeric, hkept.treeZeros.trans h.seeded⟩, hrows,
    hkept.treeZeros⟩
  rw [htotal]
  exact fun l i hocc => hholds' l i (walkOcc_top.mpr hocc)

/-! ## What a chat message keeps -/

theorem save_keeps {d : NodeDoc} (h : Js.BigIntText d.cur.hash) :
    Within Keeps (MerkleTreeNode.save d) :=
  .await fun db => .saveNode h db

theorem updateParents_keeps (fuel : ℕ) (node : NodeDoc) :
    Within Keeps (updateParents poseidon fuel node) := by
  induction fuel generalizing node with
  | zero =>
      unfold updateParents
      cases node.cur.parent with
      | none => exact .ret ()
      | some _ => exact .raise _
  | succ fuel ih =>
      unfold updateParents
      cases node.cur.parent with
      | none => exact .ret ()
      | some _ =>
          refine .bind (.ofExcept _) fun sibling => .bind (.ofExcept _) fun hash => ?_
          refine .bind (.query Keeps.refl _) fun found => ?_
          cases found with
          | none => exact .raise _
          | some p =>
              exact .bind (save_keeps (Js.bigIntText_bigIntToString _)) fun p => ih p

theorem updateUser_keeps (poseidon : List ℤ → ℤ) (config : IZKServerConfig) (leafHash : String)
    {newValue : String} (h : Js.BigIntText newValue) :
    Within Keeps (updateUser poseidon config leafHash newValue) := by
  refine .bind (.query Keeps.refl _) fun found => ?_
  cases found with
  | none => exact .raise _
  | some d => exact .bind (save_keeps (d := d.setHash newValue) h) fun d => updateParents_keeps _ d

/-- An operation that touches neither collection of the tree. -/
theorem await_keeps {α : Type} {op : Db → Except Exn α × Db}
    (h : ∀ db, (op db).2.treeNodes = db.treeNodes) (hz : ∀ db, (op db).2.treeZeros = db.treeZeros) :
    Within Keeps (Prog.await op) :=
  .await fun db => .of_eq (h db) (hz db)

theorem modify_keeps {f : Db → Db} (h : ∀ db, (f db).treeNodes = db.treeNodes)
    (hz : ∀ db, (f db).treeZeros = db.treeZeros) : Within Keeps (Prog.modify f : Server Unit) :=
  .modify fun db => .of_eq (h db) (hz db)

theorem banSender_keeps (lib : Libraries) (config : IZKServerConfig) (m : RLNMessage) :
    Within Keeps (MessageHandlerService.banSender lib config m) := by
  refine .bind ?_ fun _ => .bind (.ofExcept _) fun user => ?_
  · exact .bind (.ofExcept _) fun _ => .bind (.ofExcept _) fun _ => .query Keeps.refl _
  · refine .bind ?_ fun _ => .bind (updateUser_keeps _ _ _ (Js.bigIntText_bigIntToString _))
      fun _ => .bind (modify_keeps (fun _ => rfl) fun _ => rfl) fun _ => .raise _
    refine .bind (.query Keeps.refl _) fun found => ?_
    cases found with
    | none => exact .raise _
    | some d =>
        refine .bind (await_keeps (fun db => ?_) fun db => ?_) fun _ => .ret _
        all_goals split <;> rfl

theorem persistAndBroadcast_keeps (env : CallEnv) (m : RLNMessage) :
    Within Keeps (MessageHandlerService.persistAndBroadcast env m) := by
  have save : Within Keeps
      (StatsModel.RequestStats.saveMessage m.zk_proof m.epoch m.x_share) :=
    .bind (.ofExcept _) fun _ => .bind (.ofExcept _) fun _ => .bind (.ofExcept _) fun _ =>
      .bind (.ofExcept _) fun _ => modify_keeps (fun _ => rfl) fun _ => rfl
  refine .bind ?_ fun _ => .bind save fun _ => .bind (modify_keeps (fun _ => rfl) fun _ => rfl)
    fun _ => .ret _
  refine .bind (.ofExcept _) fun epoch => .bind (.ofExcept _) fun _ => .bind (.ofExcept _) fun _ =>
    .bind (.ofExcept _) fun _ => ?_
  cases epoch with
  | finite q =>
      refine await_keeps (fun db => ?_) fun db => ?_
      all_goals split <;> rfl
  | infinity _ => exact .raise _
  | nan => exact .raise _

/-- Every action of a chat message, that of a ban included, keeps the nodes in place. -/
theorem handleChatMessage_keeps (lib : Libraries) (config : IZKServerConfig) (env : CallEnv)
    (text : String) :
    Within Keeps (MessageHandlerService.handleChatMessage lib config env text) := by
  unfold MessageHandlerService.handleChatMessage
  cases validateFormat text with
  | none => exact .raise _
  | some m =>
      refine .bind ((checkRules_readOnly lib config env _ _ _ _).mono ?_) fun spam => ?_
      · rintro s _ rfl
        exact .refl s
      · cases spam with
        | true => exact banSender_keeps lib config m
        | false => exact persistAndBroadcast_keeps env m

end ZkChat
