import ZkChat.Js.JsonRoundTrip
import ZkChat.Server.AppendList
import ZkChat.Server.MerklePath
import ZkChat.Server.RateLimit

set_option autoImplicit false

/-! # The slashed group

Before each proof the app asks the server for its leaves and builds a Semaphore group from them; the
proof is made against the root of that group, and the server compares it with its own when the proof
arrives. The leaves travel as hexadecimal digits and become decimal ones; a leaf below zero is where
that fails. Otherwise the group has the server's root as long as no leaf has changed, and not an
update longer (`slashed_group_accepted_iff`). -/

namespace ZkChat

open HashTree Prog UserService

/-! ## The route -/

section

variable {poseidon : List ℤ → ℤ} (lib : TreeLibraries poseidon)

/-- The handler of `GET /leaves`, which answers with a text; `none` is status 500. -/
def UserRouter.leaves : Server (Option String) :=
  .tryCatch (do
    let leaves ← getLeaves lib
    pure (some (Js.jsonStringify (.arr (leaves.map .str))))) fun _ => pure none

end

/-! ## The app -/

/-- What a `Group` of `@semaphore-protocol/group` was built from. -/
structure Group where
  id : String
  treeDepth : ℕ
  members : List String
deriving DecidableEq

/-- The package: an empty leaf is a hash of the id, and the root is that of the complete tree. -/
structure GroupLibrary (poseidon : List ℤ → ℤ) where
  zeroValue : String → ℤ
  root : Group → Except Exn ℤ
  root_of_members : ∀ {group vs}, group.members.mapM Js.stringToBigInt = some vs →
    vs.length ≤ 2 ^ group.treeDepth → root group
      = .ok (HashTree.root (pairHash poseidon) (paddedLeaf (zeroValue group.id) vs) group.treeDepth)

def DEFAULT_DEPTH : ℕ := 16

def DEFAULT_GROUP_ID : String := "1"

/-- `BigInt("0x" + leaf).toString()`. -/
def memberOfLeaf (leaf : Json) : Except Exn String := do
  let text ← Js.toText (some leaf)
  let n ← Js.bigIntOfText ("0x" ++ text)
  pure (Js.bigIntToString n)

section

variable {poseidon : List ℤ → ℤ} (lib : TreeLibraries poseidon)

/-- The request is answered in the state in which it arrives. -/
def getSlashedGroup : Server Group := do
  match ← UserRouter.leaves lib with
  | none => throw (.error "Request failed with status code 500")
  | some body =>
      match Js.jsonParse body with
      | some (.arr data) => do
          let members ← Prog.ofExcept (data.mapM memberOfLeaf)
          pure { id := DEFAULT_GROUP_ID, treeDepth := DEFAULT_DEPTH, members }
      | _ => throw .typeError

end

/-! ## From the leaves to the members -/

theorem mapM_cons_eq_some {α β : Type} {f : α → Option β} {a : α} {l : List α} {bs : List β}
    (h : (a :: l).mapM f = some bs) :
    ∃ b bs', f a = some b ∧ l.mapM f = some bs' ∧ bs = b :: bs' := by
  simp only [List.mapM_cons, Option.bind_eq_bind, Option.bind_eq_some_iff, Option.pure_def,
    Option.some.injEq] at h
  obtain ⟨b, hb, bs', hbs, rfl⟩ := h
  exact ⟨b, bs', hb, hbs, rfl⟩

theorem bigIntOfText_of_eq {text : String} {v : ℤ} (h : Js.stringToBigInt text = some v) :
    Js.bigIntOfText text = .ok v := by
  rw [Js.bigIntOfText, h]

section

variable {poseidon : List ℤ → ℤ} (lib : TreeLibraries poseidon)

/-- Leaves that are not negative become the decimal texts of their values. -/
theorem mapM_bigintToHex {texts : List String} {vs : List ℤ}
    (hvs : texts.mapM Js.stringToBigInt = some vs) (hnonneg : ∀ v ∈ vs, 0 ≤ v) :
    ∃ hexes, texts.mapM (fun x => do lib.bigintToHex (← Js.bigIntOfText x)) = .ok hexes ∧
      (hexes.map Json.str).mapM memberOfLeaf = .ok (vs.map Js.bigIntToString) := by
  induction texts generalizing vs with
  | nil =>
      obtain rfl : [] = vs := by simpa using hvs
      exact ⟨[], rfl, rfl⟩
  | cons text texts ih =>
      obtain ⟨v, vs, hv, hrest, rfl⟩ := mapM_cons_eq_some hvs
      obtain ⟨hex, hhex, hread⟩ := lib.bigintToHex_nonneg v (hnonneg v (by simp))
      obtain ⟨hexes, hhexes, hmembers⟩ := ih hrest fun w hw => hnonneg w (by simp [hw])
      have hmember : memberOfLeaf (.str hex) = .ok (Js.bigIntToString v) := by
        rw [memberOfLeaf, Js.toText_str]
        show (Js.bigIntOfText ("0x" ++ hex)).bind _ = _
        rw [bigIntOfText_of_eq hread]
        rfl
      refine ⟨hex :: hexes, ?_, ?_⟩
      · rw [List.mapM_cons, hhexes, bigIntOfText_of_eq hv]
        show (lib.bigintToHex v).bind _ = _
        rw [hhex]
        rfl
      · rw [List.map_cons, List.mapM_cons, hmember, hmembers]
        rfl

/-- A negative leaf is an exception. -/
theorem mapM_bigintToHex_neg {texts : List String} {vs : List ℤ}
    (hvs : texts.mapM Js.stringToBigInt = some vs) (hneg : ∃ v ∈ vs, v < 0) :
    ∃ e, texts.mapM (fun x => do lib.bigintToHex (← Js.bigIntOfText x)) = .error e := by
  induction texts generalizing vs with
  | nil =>
      obtain rfl : [] = vs := by simpa using hvs
      simp at hneg
  | cons text texts ih =>
      obtain ⟨v, vs, hv, hrest, rfl⟩ := mapM_cons_eq_some hvs
      rw [List.mapM_cons, bigIntOfText_of_eq hv]
      show ∃ e, (lib.bigintToHex v).bind _ = .error e
      rcases lt_or_ge v 0 with hlt | hge
      · rw [lib.bigintToHex_neg v hlt]
        exact ⟨_, rfl⟩
      · obtain ⟨hex, hhex, -⟩ := lib.bigintToHex_nonneg v hge
        obtain ⟨w, hw, hwneg⟩ := hneg
        have hmem : w ∈ vs := by
          rcases List.mem_cons.mp hw with rfl | hw
          · exact absurd hwneg (not_lt.mpr hge)
          · exact hw
        obtain ⟨e, he⟩ := ih hrest ⟨w, hmem, hwneg⟩
        rw [hhex, he]
        exact ⟨e, rfl⟩

theorem mapM_stringToBigInt_toString (vs : List ℤ) :
    (vs.map Js.bigIntToString).mapM Js.stringToBigInt = some vs := by
  induction vs with
  | nil => rfl
  | cons v vs ih =>
      rw [List.map_cons, List.mapM_cons, ih, Js.stringToBigInt_bigIntToString]
      rfl

theorem readable_texts (texts : List String) : Js.Readable (.arr (texts.map .str)) := by
  induction texts with
  | nil => trivial
  | cons text texts ih => exact ⟨trivial, ih⟩

/-- What the app gets for leaves that denote `vs`. -/
theorem run_getSlashedGroup {db : Db} {vs : List ℤ}
    (hvs : db.leafHashes.mapM Js.stringToBigInt = some vs) :
    (getSlashedGroup lib).run db = (if ∀ v ∈ vs, 0 ≤ v then
      .ok { id := DEFAULT_GROUP_ID, treeDepth := DEFAULT_DEPTH
            members := vs.map Js.bigIntToString }
      else .error (.error "Request failed with status code 500"), db) := by
  have hleaves := run_getLeaves lib db
  split
  · next hnonneg =>
      obtain ⟨hexes, hhexes, hmembers⟩ := mapM_bigintToHex lib hvs hnonneg
      rw [hhexes] at hleaves
      have hroute : (UserRouter.leaves lib).run db
          = (.ok (some (Js.jsonStringify (.arr (hexes.map .str)))), db) :=
        run_tryCatch_of_ok (run_bind_of_ok hleaves)
      rw [getSlashedGroup, run_bind_of_ok hroute]
      simp only
      rw [Js.jsonParse_of_readable (readable_texts hexes)]
      simp only
      rw [hmembers]
      rfl
  · next hneg =>
      obtain ⟨e, he⟩ := mapM_bigintToHex_neg lib hvs (by simpa using hneg)
      rw [he] at hleaves
      have hroute : (UserRouter.leaves lib).run db = (.ok none, db) :=
        run_tryCatch_of_error (run_bind_of_error hleaves)
      rw [getSlashedGroup, run_bind_of_ok hroute]
      rfl

end

/-! ## The root of the group -/

/-- The server compares the root of a proof with its own as integers. -/
theorem isZkProofValid_fullProof (lib : Libraries) (e rln r x n sh y : ℤ) {s : String} {root : ℤ}
    (hs : Js.stringToBigInt s = some root) :
    isZkProofValid lib (some (fullProof e rln r x n sh y)) s
      = if r ≠ root then .ok false
        else Hasher.verifyProof lib (some (fullProof e rln r x n sh y)) := by
  have hsignal : publicSignal (some (fullProof e rln r x n sh y)) "merkleRoot"
      = .ok (some (.str (Js.bigIntToString r))) := rfl
  rw [isZkProofValid, hsignal]
  show (Js.bigInt (some (.str (Js.bigIntToString r)))).bind _ = _
  rw [Js.bigInt_str_bigIntToString, bigIntOfText_of_eq hs]
  rfl

section

variable {lib : Libraries} {config : IZKServerConfig} {db db' : Db}

/-- The app reads the leaves in one state of a run, and a proof made against the group arrives in
    another state of a run, where the updates start from fresh paths and the hash is injective: the
    server accepts the proof exactly if the same leaves are stored, and the proof verifies. With a
    negative leaf there is no group. -/
theorem slashed_group_accepted_iff (tree : TreeLibraries lib.poseidon)
    (groups : GroupLibrary lib.poseidon) (hinj : Function.Injective2 (pairHash lib.poseidon))
    (hlevels : config.merkleTreeLevels = DEFAULT_DEPTH)
    (hzero : config.zeroValue = groups.zeroValue DEFAULT_GROUP_ID)
    (h : TreeRun lib.poseidon config (TreeOp.Fresh lib.poseidon config) db)
    (h' : TreeRun lib.poseidon config (TreeOp.Fresh lib.poseidon config) db')
    (hleaf : 0 < db'.getTotalNumberOfLeaves) {leaf leaf' : ℕ → ℤ} (hread : db.Leaves config leaf)
    (hread' : db'.Leaves config leaf') :
    if ∀ i < db.getTotalNumberOfLeaves, 0 ≤ leaf i then
      ∃ group r s, (getSlashedGroup tree).run db = (.ok group, db) ∧ groups.root group = .ok r ∧
        getRoot.run db' = (.ok s, db') ∧
        ∀ e rln x n sh y, isZkProofValid lib (some (fullProof e rln r x n sh y)) s = .ok true ↔
          leaf = leaf' ∧ Hasher.verifyProof lib (some (fullProof e rln r x n sh y)) = .ok true
    else (getSlashedGroup tree).run db
      = (.error (.error "Request failed with status code 500"), db) := by
  obtain ⟨n, leaf₀, hinv⟩ := h.atRest
  obtain rfl : leaf₀ = leaf := hinv.leaves.eq.trans hread.eq.symm
  obtain ⟨n', leaf₀', hinv'⟩ := h'.atRest
  obtain rfl : leaf₀' = leaf' := hinv'.leaves.eq.trans hread'.eq.symm
  have hvs := hinv.leafHashes (treeRun_inOrder h)
  have hrun := run_getSlashedGroup tree hvs
  have hsign : (∀ v ∈ (List.range n).map leaf₀, 0 ≤ v) ↔
      ∀ i < db.getTotalNumberOfLeaves, 0 ≤ leaf₀ i := by
    rw [hinv.count]
    simp
  simp only [hsign] at hrun
  split
  · next hnonneg =>
      rw [if_pos hnonneg] at hrun
      obtain ⟨s, hs, hroot⟩ := hinv'.getRoot (hinv'.count ▸ hleaf)
      have hgroup := @groups.root_of_members
        ⟨DEFAULT_GROUP_ID, DEFAULT_DEPTH, ((List.range n).map leaf₀).map Js.bigIntToString⟩ _
        (mapM_stringToBigInt_toString _) (by simpa [← hlevels] using hinv.room)
      refine ⟨_, _, s, hrun, hgroup, hs, fun e rln x n' sh y => ?_⟩
      rw [isZkProofValid_fullProof lib e rln _ x n' sh y hroot, ← hzero, hinv.paddedLeaf_eq,
        ← hlevels]
      -- the roots are the same exactly for the same leaves
      have hsame : HashTree.root (pairHash lib.poseidon) leaf₀ config.merkleTreeLevels
          = HashTree.root (pairHash lib.poseidon) leaf₀' config.merkleTreeLevels ↔
            leaf₀ = leaf₀' := by
        refine ⟨fun hroots => ?_, fun heq => heq ▸ rfl⟩
        have hbelow := (subtree_eq_iff hinj).mp hroots
        funext i
        rcases Nat.lt_or_ge i (2 ^ config.merkleTreeLevels) with hi | hi
        · exact hbelow i (Nat.div_eq_of_lt hi)
        · rw [hinv.beyond i (hinv.room.trans hi), hinv'.beyond i (hinv'.room.trans hi)]
      rw [← hsame]
      split
      · next hne => simp [hne]
      · next heq => simp [not_not.mp heq]
  · next hneg =>
      rw [if_neg hneg] at hrun
      exact hrun

end

namespace Demo

def pairsLib : Libraries := { lib with poseidon := pairs }

/-- As deployed, but for the zero value. -/
def sixteenLevels : IZKServerConfig :=
  { merkleTreeLevels := 16, spamThreshold := 2, epochAllowedDelayThreshold := 20, zeroValue := 0 }

def groupLibrary (poseidon : List ℤ → ℤ) : GroupLibrary poseidon where
  zeroValue _ := 0
  root group :=
    match group.members.mapM Js.stringToBigInt with
    | none => .error .syntaxError
    | some vs =>
        if 2 ^ group.treeDepth < vs.length then .error (.error "The tree is full")
        else .ok (HashTree.root (pairHash poseidon) (paddedLeaf 0 vs) group.treeDepth)
  root_of_members := by
    intro group vs hvs hroom
    simp only [hvs]
    exact if_neg (not_lt.mpr hroom)

/-- Two members have joined. -/
def twoJoined : Db := (UserService.appendUsers pairs sixteenLevels twoMembers "g").exec
  ((seedZeros pairs 0 16).exec {})

theorem twoJoined_run :
    TreeRun pairs sixteenLevels (TreeOp.Fresh pairs sixteenLevels) twoJoined := by
  obtain ⟨db, hrun, -⟩ := seedZeros_seeded pairs sixteenLevels
  have hseeded : (seedZeros pairs 0 16).run {} = (.ok (), (seedZeros pairs 0 16).exec {}) := by
    rw [exec, show (seedZeros pairs 0 16).run {} = _ from hrun]
  exact (TreeRun.seeded hseeded).op (.appendUsers twoMembers "g") twoMembers_numeric trivial

theorem leafRows_twoJoined : twoJoined.leafRows = newRows "g" 0 twoMembers := by
  obtain ⟨db, hrun, hzeros, hnodes⟩ := seedZeros_seeded pairs sixteenLevels
  have htree : TreeInv pairs sixteenLevels 0 (fun _ => sixteenLevels.zeroValue) (fun _ _ => False)
      db := .empty hzeros hnodes
  have hnumeric : ∀ user ∈ twoMembers.take (2 ^ sixteenLevels.merkleTreeLevels - 0), user.Numeric :=
    fun user hu => twoMembers_numeric user (List.mem_of_mem_take hu)
  obtain ⟨leaf, db', happend, -, hrows⟩ := htree.appendNewMembers "g" hnumeric
  have hempty : db.leafRows = [] := by simp [Db.leafRows, hnodes]
  have hnew : newMembers (db.groupIndexes "g") twoMembers = twoMembers := by
    rw [Db.groupIndexes, hempty]
    rfl
  have hjoined : twoJoined = db' := by
    have hexec : (seedZeros pairs 0 16).exec {} = db := congrArg Prod.snd hrun
    have hne : db.treeZeros ≠ [] := by
      rw [show db.treeZeros = _ from hzeros]
      simp [sixteenLevels]
    rw [twoJoined, hexec, exec, run_appendUsers_new (by decide) hne, hnew, happend]
  rw [hjoined, hrows, hempty]
  rfl

end Demo

/-- The group of two members, as long as nobody joins or leaves. -/
theorem slashed_group_accepted_two : ∃ group r s,
    (getSlashedGroup (Demo.treeLibraries Demo.pairs)).run Demo.twoJoined
      = (.ok group, Demo.twoJoined) ∧
    (Demo.groupLibrary Demo.pairs).root group = .ok r ∧
    getRoot.run Demo.twoJoined = (.ok s, Demo.twoJoined) ∧
    ∀ e rln x n sh y,
      isZkProofValid Demo.pairsLib (some (fullProof e rln r x n sh y)) s = .ok true ↔
        Hasher.verifyProof Demo.pairsLib (some (fullProof e rln r x n sh y)) = .ok true := by
  have hrun := Demo.twoJoined_run
  have hrows := Demo.leafRows_twoJoined
  have hinj : Function.Injective2 (pairHash Demo.pairs) := fun _ _ _ _ h => Demo.pair_injective h
  -- the store is known by its leaves
  generalize Demo.twoJoined = db at hrun hrows ⊢
  obtain ⟨n, leaf, hinv⟩ := hrun.atRest
  have hcount : db.getTotalNumberOfLeaves = 2 := by
    rw [getTotalNumberOfLeaves_eq, hrows]
    rfl
  have hvalues : (List.range 2).map leaf = [1, 2] := by
    have hread := hinv.leafHashes (treeRun_inOrder hrun)
    rw [Db.leafHashes, hrows, ← hinv.count, hcount] at hread
    exact Option.some.inj (hread.symm.trans (by decide +kernel))
  have hnonneg : ∀ i < db.getTotalNumberOfLeaves, 0 ≤ leaf i := by
    intro i hi
    have hmem : leaf i ∈ (List.range 2).map leaf :=
      List.mem_map_of_mem (List.mem_range.mpr (hcount ▸ hi))
    rw [hvalues, List.mem_pair] at hmem
    omega
  have hiff := @slashed_group_accepted_iff Demo.pairsLib Demo.sixteenLevels db db
    (Demo.treeLibraries Demo.pairs) (Demo.groupLibrary Demo.pairs) hinj rfl rfl hrun hrun
    (hcount ▸ Nat.two_pos) leaf leaf hinv.leaves hinv.leaves
  rw [if_pos hnonneg] at hiff
  obtain ⟨group, r, s, hgroup, hr, hs, haccepted⟩ := hiff
  exact ⟨group, r, s, hgroup, hr, hs, fun e rln x n sh y => by simp [haccepted]⟩

end ZkChat
