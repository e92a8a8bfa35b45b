import Mathlib.Data.List.Basic
import Mathlib.Tactic.Common

set_option autoImplicit false

/-! # The popup of the Passport

A proof is asked for by opening a popup and listening to all messages that come to the page. Two
variables of the module keep the popup and the listener of the last request, so that the next one
can close and remove them. In every interleaving at most one popup is open (`one_popup`). A message
says nothing about its popup, and whatever request completes clears the variables; who gets an
answer is therefore a matter of when requests start. If none starts while an answer is on its way,
no request is answered by the popup of another one; where a window posts that is no popup of the
page, which checks neither the source nor the origin of a message, that answer is taken as well
(`answered_by_own_popup`). -/

namespace ZkChat

/-- A PCD after decoding and parsing. -/
structure SerializedPCD where
  type : String
  pcd : String

/-- What became of the promise. `source` is the popup that the answer came from, if it was one. -/
inductive Outcome (π : Type) where
  | pending
  /-- `undefined` for a PCD of another type. -/
  | resolved (pcd : Option π) (source : Option ℕ)
  | rejected

/-- A call of `getPCDFromPassport`. -/
structure PCDCall (π : Type) where
  pkg : String
  outcome : Outcome π := .pending

/-- A window that `window.open` has returned, with the request that opened it. -/
structure Popup where
  request : ℕ
  closed : Bool := false
deriving DecidableEq

def Popup.close (p : Popup) : Popup := { p with closed := true }

/-- A promise is settled once. -/
def PCDCall.settle {π : Type} (r : PCDCall π) (outcome : Outcome π) : PCDCall π :=
  match r.outcome with
  | .pending => { r with outcome }
  | _ => r

/-- The page, the popups, and the messages and deserializations that are under way. -/
structure PassportPage (π : Type) where
  requests : List (PCDCall π) := []
  popups : List Popup := []
  currentPopup : Option ℕ := none
  /-- The requests whose `receiveMessage` is registered on the window. -/
  listeners : List ℕ := []
  currentMessageListener : Option ℕ := none
  /-- Where it comes from, and the PCD; `none` where decoding or parsing throws. -/
  posted : List (Option ℕ × Option SerializedPCD) := []
  /-- The request, where the text comes from, and the text. -/
  deserializing : List (ℕ × Option ℕ × String) := []

inductive PassportEvent where
  /-- `window.open` may be refused. -/
  | getPCDFromPassport (pkg : String) (opens : Bool)
  /-- The popup posts a PCD and closes itself. -/
  | post (popup : ℕ) (pcd : Option SerializedPCD)
  /-- A window that is no popup of the page posts a PCD. -/
  | postElsewhere (pcd : Option SerializedPCD)
  /-- The first message arrives at the page. -/
  | message
  /-- A deserialization comes to its end. -/
  | deserialized (k : ℕ)
  /-- The user closes the popup. -/
  | close (popup : ℕ)

/-- What comes from there was posted by this event. -/
def PassportEvent.posting : Option ℕ → Option SerializedPCD → PassportEvent
  | some popup, pcd => .post popup pcd
  | none, pcd => .postElsewhere pcd

namespace PassportPage

section

variable {π : Type}

def closePopup (s : PassportPage π) (popup : ℕ) : PassportPage π :=
  { s with popups := s.popups.modify popup Popup.close }

def settle (s : PassportPage π) (request : ℕ) (outcome : Outcome π) : PassportPage π :=
  { s with requests := s.requests.modify request (·.settle outcome) }

/-- `if (currentPopup) { … currentPopup = null; }` -/
def clearPopup (s : PassportPage π) : PassportPage π :=
  match s.currentPopup with
  | none => s
  | some popup => { s.closePopup popup with currentPopup := none }

/-- `removeEventListener`. -/
def removeListener (s : PassportPage π) (request : ℕ) : PassportPage π :=
  { s with listeners := s.listeners.erase request }

def cleanup (s : PassportPage π) : PassportPage π :=
  let s := match s.currentMessageListener with
    | none => s
    | some listener => { s.removeListener listener with currentMessageListener := none }
  s.clearPopup

def getPCDFromPassport (s : PassportPage π) (pkg : String) (opens : Bool) : PassportPage π :=
  let request := s.requests.length
  let s := { s.cleanup with requests := s.requests ++ [({ pkg } : PCDCall π)] }
  if opens then
    { s with
      popups := s.popups ++ [({ request } : Popup)]
      currentPopup := some s.popups.length
      listeners := s.listeners ++ [request]
      currentMessageListener := some request }
  else s.settle request .rejected

/-- `receiveMessage` of a request. -/
def receiveMessage (source : Option ℕ) (pcd : SerializedPCD) (s : PassportPage π) (request : ℕ) :
    PassportPage π :=
  if (s.requests[request]?.map (·.pkg)) ≠ some pcd.type then
    s.settle request (.resolved none source)
  else { s with deserializing := s.deserializing ++ [(request, source, pcd.pcd)] }

/-- Each listener gets the message; where it cannot be parsed, each throws. -/
def message (s : PassportPage π) : PassportPage π :=
  match s.posted with
  | [] => s
  | (_, none) :: posted => { s with posted }
  | (source, some pcd) :: posted =>
      s.listeners.foldl (receiveMessage source pcd) { s with posted }

/-- A request has its PCD: whatever listener and popup are current are not any more. -/
def complete (s : PassportPage π) (request : ℕ) (source : Option ℕ) (pcd : π) : PassportPage π :=
  let s := { s.removeListener request with currentMessageListener := none }
  s.clearPopup.settle request (.resolved (some pcd) source)

variable (deserialize : String → String → Option π)

/-- What follows on `pkg.deserialize`. -/
def deserialized (s : PassportPage π) (k : ℕ) : PassportPage π :=
  match s.deserializing[k]? with
  | none => s
  | some (request, source, text) =>
      let s := { s with deserializing := s.deserializing.eraseIdx k }
      match (s.requests[request]?.bind fun r => deserialize r.pkg text) with
      | none => s.settle request .rejected
      | some pcd => s.complete request source pcd

def step (s : PassportPage π) : PassportEvent → PassportPage π
  | .getPCDFromPassport pkg opens => s.getPCDFromPassport pkg opens
  | .post popup pcd =>
      if s.popups[popup]?.any (!·.closed) then
        { s.closePopup popup with posted := s.posted ++ [(some popup, pcd)] }
      else s
  | .postElsewhere pcd => { s with posted := s.posted ++ [(none, pcd)] }
  | .message => s.message
  | .deserialized k => s.deserialized deserialize k
  | .close popup => s.closePopup popup

end

/-! ## What the parts of a step change -/

section

variable {π : Type} (s : PassportPage π)

/-- The request that opened each popup. -/
def openers : List ℕ := s.popups.map (·.request)

/-- The package of each request. -/
def pkgs : List String := s.requests.map (·.pkg)

theorem map_modify {α β : Type} {f : α → α} {g : α → β} (h : ∀ a, g (f a) = g a) (l : List α)
    (i : ℕ) : (l.modify i f).map g = l.map g := by
  induction l generalizing i with
  | nil => simp
  | cons a l ih =>
      cases i with
      | zero => simp [h]
      | succ i => simp [ih]

@[simp] theorem openers_closePopup (popup : ℕ) : (s.closePopup popup).openers = s.openers :=
  map_modify (f := Popup.close) (fun _ => rfl) s.popups popup

theorem pkg_settle (r : PCDCall π) (outcome : Outcome π) : (r.settle outcome).pkg = r.pkg := by
  unfold PCDCall.settle
  split <;> rfl

theorem outcome_settle (r : PCDCall π) (outcome : Outcome π) :
    (r.settle outcome).outcome = r.outcome ∨ (r.settle outcome).outcome = outcome := by
  unfold PCDCall.settle
  split
  · exact .inr rfl
  · exact .inl rfl

@[simp] theorem pkgs_settle (request : ℕ) (outcome : Outcome π) :
    (s.settle request outcome).pkgs = s.pkgs :=
  map_modify (fun r => pkg_settle r outcome) s.requests request

/-- A popup that is open was open before. -/
theorem open_closePopup {popup w : ℕ} {p : Popup} (h : (s.closePopup popup).popups[w]? = some p)
    (hopen : p.closed = false) : s.popups[w]? = some p ∧ w ≠ popup := by
  rw [closePopup, List.getElem?_modify] at h
  obtain ⟨p₀, hp₀, heq⟩ := Option.map_eq_some_iff.mp h
  by_cases hw : popup = w
  · rw [if_pos hw] at heq
    subst heq
    cases hopen
  · rw [if_neg hw] at heq
    subst heq
    exact ⟨hp₀, Ne.symm hw⟩

/-- Each open popup is the current one. -/
def OnlyCurrent : Prop :=
  ∀ w p, s.popups[w]? = some p → p.closed = false → s.currentPopup = some w

variable {s}

theorem OnlyCurrent.closePopup (h : s.OnlyCurrent) (popup : ℕ) :
    (s.closePopup popup).OnlyCurrent :=
  fun w p hp hopen => h w p (s.open_closePopup hp hopen).1 hopen

/-- After the popup was cleared none is open. -/
theorem OnlyCurrent.clearPopup (h : s.OnlyCurrent) {w : ℕ} {p : Popup}
    (hp : s.clearPopup.popups[w]? = some p) : p.closed = true := by
  by_contra hopen
  replace hopen : p.closed = false := by simpa using hopen
  unfold PassportPage.clearPopup at hp
  split at hp
  · next hcur =>
      have := h w p hp hopen
      rw [hcur] at this
      cases this
  · next popup hcur =>
      obtain ⟨hbefore, hne⟩ := s.open_closePopup hp hopen
      have := h w p hbefore hopen
      rw [hcur] at this
      exact hne (Option.some.inj this).symm

@[simp] theorem currentPopup_clearPopup : s.clearPopup.currentPopup = none := by
  unfold PassportPage.clearPopup
  split
  · assumption
  · rfl

/-- Clearing the popup touches nothing else. -/
theorem clearPopup_frame : s.clearPopup.requests = s.requests ∧ s.clearPopup.openers = s.openers ∧
    s.clearPopup.listeners = s.listeners ∧
    s.clearPopup.currentMessageListener = s.currentMessageListener ∧
    s.clearPopup.posted = s.posted ∧ s.clearPopup.deserializing = s.deserializing := by
  unfold PassportPage.clearPopup
  split
  · simp
  · next popup _ => exact ⟨rfl, s.openers_closePopup popup, rfl, rfl, rfl, rfl⟩

theorem OnlyCurrent.cleanup (h : s.OnlyCurrent) {w : ℕ} {p : Popup}
    (hp : s.cleanup.popups[w]? = some p) : p.closed = true := by
  unfold PassportPage.cleanup at hp
  split at hp
  · exact h.clearPopup hp
  · exact OnlyCurrent.clearPopup (s := { s.removeListener _ with currentMessageListener := none })
      h hp

/-- The listeners of a message do nothing to the popups. -/
theorem foldl_receiveMessage_frame (source : Option ℕ) (pcd : SerializedPCD) (listeners : List ℕ)
    (s : PassportPage π) : (listeners.foldl (receiveMessage source pcd) s).popups = s.popups ∧
      (listeners.foldl (receiveMessage source pcd) s).currentPopup = s.currentPopup := by
  induction listeners generalizing s with
  | nil => exact ⟨rfl, rfl⟩
  | cons listener listeners ih =>
      have hone : (receiveMessage source pcd s listener).popups = s.popups ∧
          (receiveMessage source pcd s listener).currentPopup = s.currentPopup := by
        unfold receiveMessage
        split <;> exact ⟨rfl, rfl⟩
      obtain ⟨hpopups, hcurrent⟩ := ih (receiveMessage source pcd s listener)
      exact ⟨hpopups.trans hone.1, hcurrent.trans hone.2⟩

/-- A new popup is opened when none is open. -/
theorem OnlyCurrent.getPCDFromPassport (h : s.OnlyCurrent) (pkg : String) (opens : Bool) :
    (s.getPCDFromPassport pkg opens).OnlyCurrent := by
  intro w p hp hopen
  unfold PassportPage.getPCDFromPassport at hp ⊢
  cases opens with
  | true =>
      simp only [if_true] at hp ⊢
      rcases Nat.lt_or_ge w s.cleanup.popups.length with hw | hw
      · rw [List.getElem?_append_left hw] at hp
        rw [h.cleanup hp] at hopen
        cases hopen
      · obtain ⟨hlt, -⟩ := List.getElem?_eq_some_iff.mp hp
        rw [List.length_append, List.length_singleton] at hlt
        exact congrArg some (by omega)
  | false =>
      rw [h.cleanup hp] at hopen
      cases hopen

theorem OnlyCurrent.complete (h : s.OnlyCurrent) (request : ℕ) (source : Option ℕ) (pcd : π) :
    (s.complete request source pcd).OnlyCurrent := by
  intro w p hp hopen
  have hclosed := OnlyCurrent.clearPopup
    (s := { s.removeListener request with currentMessageListener := none }) h hp
  rw [hopen] at hclosed
  cases hclosed

theorem OnlyCurrent.step (deserialize : String → String → Option π) (h : s.OnlyCurrent)
    (e : PassportEvent) : (s.step deserialize e).OnlyCurrent := by
  cases e with
  | getPCDFromPassport pkg opens => exact h.getPCDFromPassport pkg opens
  | post popup pcd =>
      show PassportPage.OnlyCurrent (if _ then _ else _)
      split
      · exact h.closePopup popup
      · exact h
  | postElsewhere pcd => exact h
  | message =>
      show s.message.OnlyCurrent
      unfold PassportPage.message
      split
      · exact h
      · exact h
      · next source pcd posted _ =>
          obtain ⟨hpopups, hcurrent⟩ :=
            foldl_receiveMessage_frame source pcd s.listeners { s with posted }
          intro w p hp hopen
          rw [hpopups] at hp
          exact hcurrent.trans (h w p hp hopen)
  | deserialized k =>
      show (s.deserialized deserialize k).OnlyCurrent
      unfold PassportPage.deserialized
      split
      · exact h
      · dsimp only
        split
        · exact h
        · exact OnlyCurrent.complete (s := { s with deserializing := s.deserializing.eraseIdx k })
            h _ _ _
  | close popup => exact h.closePopup popup

end

end PassportPage

/-! ## Runs -/

section

variable {π : Type} (deserialize : String → String → Option π)

/-- The states after events, in the order in which these happen; a request starts where `ok`. -/
inductive PassportRun (ok : PassportPage π → Prop) : List PassportEvent → PassportPage π → Prop
  | init : PassportRun ok [] {}
  | step {events : List PassportEvent} {s : PassportPage π} (h : PassportRun ok events s)
      (e : PassportEvent) (hok : ∀ pkg opens, e = .getPCDFromPassport pkg opens → ok s) :
      PassportRun ok (events ++ [e]) (s.step deserialize e)

variable {deserialize} {events : List PassportEvent} {s : PassportPage π}

theorem PassportRun.onlyCurrent {ok : PassportPage π → Prop}
    (h : PassportRun deserialize ok events s) :
    s.OnlyCurrent := by
  induction h with
  | init =>
      intro w p hp
      simp at hp
  | step _ e _ ih => exact ih.step deserialize e

theorem countP_le_one {α : Type} {q : α → Bool} {l : List α}
    (h : ∀ (i j : ℕ) (a b : α), l[i]? = some a → l[j]? = some b → q a = true → q b = true →
      i = j) : l.countP q ≤ 1 := by
  induction l with
  | nil => simp
  | cons a l ih =>
      rw [List.countP_cons]
      split
      · next ha =>
          have hnone : l.countP q = 0 := by
            refine List.countP_eq_zero.mpr fun b hb hq => ?_
            obtain ⟨j, hj⟩ := List.mem_iff_getElem?.mp hb
            exact absurd (h 0 (j + 1) a b rfl hj ha hq) (Nat.succ_ne_zero j).symm
          omega
      · exact ih fun i j b c hi hj hb hc =>
          Nat.succ.inj (h (i + 1) (j + 1) b c hi hj hb hc)

/-- At most one popup is open, in every state of every run. -/
theorem one_popup {ok : PassportPage π → Prop} (h : PassportRun deserialize ok events s) :
    s.popups.countP (!·.closed) ≤ 1 := by
  refine countP_le_one fun w w' p p' hp hp' hopen hopen' => ?_
  have hw := h.onlyCurrent w p hp (by simpa using hopen)
  exact Option.some.inj (hw.symm.trans (h.onlyCurrent w' p' hp' (by simpa using hopen')))

/-- Nothing is on its way to a request. -/
def PassportPage.Quiet (s : PassportPage π) : Prop := s.posted = [] ∧ s.deserializing = []

/-- What the request for a PCD of `pkg` is resolved with after `d` was posted. -/
def Answers (deserialize : String → String → Option π) (pkg : String) (d : SerializedPCD)
    (pcd : Option π) : Prop :=
  if d.type = pkg then pcd ≠ none ∧ deserialize pkg d.pcd = pcd else pcd = none

/-- What is under way from a popup comes from the current one, or there is none any more; what has
    arrived from a popup came from the request's own. -/
structure Owned (deserialize : String → String → Option π) (events : List PassportEvent)
    (s : PassportPage π) : Prop where
  paired : s.currentMessageListener = s.currentPopup.bind fun w => s.openers[w]?
  listeners : s.listeners = s.currentMessageListener.toList
  posted : ∀ source pcd, (source, pcd) ∈ s.posted →
    (∀ w, source = some w → s.currentPopup = none ∨ s.currentPopup = some w) ∧
      .posting source pcd ∈ events
  deserializing : ∀ r source text, (r, source, text) ∈ s.deserializing →
    (s.currentMessageListener = none ∨ s.currentMessageListener = some r) ∧
      (∀ w, source = some w → s.openers[w]? = some r) ∧
        ∃ pkg, s.pkgs[r]? = some pkg ∧ .posting source (some ⟨pkg, text⟩) ∈ events
  answered : ∀ r q pcd source, s.requests[r]? = some q → q.outcome = .resolved pcd source →
    (∀ w, source = some w → s.openers[w]? = some r) ∧
      ∃ d, .posting source (some d) ∈ events ∧ Answers deserialize q.pkg d pcd

theorem owned_init : Owned deserialize [] {} where
  paired := rfl
  listeners := rfl
  posted w pcd h := by cases h
  deserializing r w text h := by cases h
  answered r q pcd w h := by simp at h

theorem Owned.mono (h : Owned deserialize events s) (e : PassportEvent) :
    Owned deserialize (events ++ [e]) s where
  paired := h.paired
  listeners := h.listeners
  posted w pcd hm := (h.posted w pcd hm).imp_right (List.mem_append_left _)
  deserializing r w text hd := by
    obtain ⟨hcurrent, hopener, pkg, hpkg, hpost⟩ := h.deserializing r w text hd
    exact ⟨hcurrent, hopener, pkg, hpkg, List.mem_append_left _ hpost⟩
  answered r q pcd w hq hout := by
    obtain ⟨hopener, d, hpost, hanswers⟩ := h.answered r q pcd w hq hout
    exact ⟨hopener, d, List.mem_append_left _ hpost, hanswers⟩

/-- An outcome that a message justifies, which is the request's own where it is from a popup. -/
theorem Owned.settle (h : Owned deserialize events s) {request : ℕ} {outcome : Outcome π}
    (hown : ∀ q pcd source, s.requests[request]? = some q → outcome = .resolved pcd source →
      (∀ w, source = some w → s.openers[w]? = some request) ∧
        ∃ d, .posting source (some d) ∈ events ∧ Answers deserialize q.pkg d pcd) :
    Owned deserialize events (s.settle request outcome) where
  paired := h.paired
  listeners := h.listeners
  posted := h.posted
  deserializing r w text hd := by
    obtain ⟨hcurrent, hopener, pkg, hpkg, hpost⟩ := h.deserializing r w text hd
    exact ⟨hcurrent, hopener, pkg, by rwa [PassportPage.pkgs_settle], hpost⟩
  answered r q pcd w hq hout := by
    rw [PassportPage.settle, List.getElem?_modify] at hq
    obtain ⟨q₀, hq₀, heq⟩ := Option.map_eq_some_iff.mp hq
    by_cases hr : request = r
    · subst hr
      rw [if_pos rfl] at heq
      subst heq
      rw [PassportPage.pkg_settle]
      rcases PassportPage.outcome_settle q₀ outcome with hold | hnew
      · exact h.answered request q₀ pcd w hq₀ (hold.symm.trans hout)
      · exact hown q₀ pcd w hq₀ (hnew.symm.trans hout)
    · rw [if_neg hr] at heq
      subst heq
      exact h.answered r q₀ pcd w hq₀ hout

theorem Owned.closePopup (h : Owned deserialize events s) (popup : ℕ) :
    Owned deserialize events (s.closePopup popup) where
  paired := by
    rw [PassportPage.openers_closePopup]
    exact h.paired
  listeners := h.listeners
  posted := h.posted
  deserializing r w text hd := by
    rw [PassportPage.openers_closePopup]
    exact h.deserializing r w text hd
  answered r q pcd w hq hout := by
    rw [PassportPage.openers_closePopup]
    exact h.answered r q pcd w hq hout

/-- The one listener belongs to the popup that the message is from, if it is from one. -/
theorem Owned.listener_of_posted (h : Owned deserialize events s) {source : Option ℕ}
    {pcd : Option SerializedPCD} (hm : (source, pcd) ∈ s.posted) :
    s.listeners = [] ∨ ∃ r, s.listeners = [r] ∧ s.currentMessageListener = some r ∧
      ∀ w, source = some w → s.openers[w]? = some r := by
  rw [h.listeners]
  cases hlistener : s.currentMessageListener with
  | none => exact .inl rfl
  | some r =>
      refine .inr ⟨r, rfl, rfl, fun w hw => ?_⟩
      have hpaired := h.paired
      rcases (h.posted source pcd hm).1 w hw with hnone | hsome
      · rw [hnone, hlistener] at hpaired
        cases hpaired
      · rw [hsome, hlistener] at hpaired
        exact hpaired.symm

theorem Owned.message (h : Owned deserialize events s) : Owned deserialize events s.message := by
  have hrest : ∀ {m posted}, s.posted = m :: posted → Owned deserialize events { s with posted } :=
    fun hposted => { h with
      posted := fun source pcd hm =>
        h.posted source pcd (by rw [hposted]; exact List.mem_cons_of_mem _ hm) }
  unfold PassportPage.message
  split
  · exact h
  · next hposted => exact hrest hposted
  · next source pcd posted hposted =>
      have hmem : (source, some pcd) ∈ s.posted := by
        rw [hposted]
        exact List.mem_cons_self
      suffices hfold : ∀ l, s.listeners = l → Owned deserialize events
          (l.foldl (PassportPage.receiveMessage source pcd) { s with posted }) from hfold _ rfl
      intro l hl
      rcases h.listener_of_posted hmem with hnone | ⟨r, hone, hlistener, hopener⟩
      · obtain rfl : l = [] := hl.symm.trans hnone
        exact hrest hposted
      · obtain rfl : l = [r] := hl.symm.trans hone
        have hpost := (h.posted source _ hmem).2
        show Owned deserialize events (PassportPage.receiveMessage source pcd { s with posted } r)
        unfold PassportPage.receiveMessage
        split
        · next htype =>
            refine (hrest hposted).settle fun q pcd' w hq hout => ?_
            obtain ⟨rfl, rfl⟩ := Outcome.resolved.inj hout
            refine ⟨hopener, pcd, hpost, ?_⟩
            have hne : pcd.type ≠ q.pkg := by
              intro heq
              exact htype (by rw [hq, heq]; rfl)
            rw [Answers, if_neg hne]
        · next htype =>
            refine { hrest hposted with deserializing := fun r' w text hd => ?_ }
            rcases List.mem_append.mp hd with hd | hd
            · exact (hrest hposted).deserializing r' w text hd
            · obtain ⟨rfl, rfl, rfl⟩ : r' = r ∧ w = source ∧ text = pcd.pcd := by simpa using hd
              refine ⟨.inr hlistener, hopener, pcd.type, ?_, hpost⟩
              rw [PassportPage.pkgs, List.getElem?_map]
              exact not_not.mp htype

theorem Owned.complete (h : Owned deserialize events s) {r : ℕ} {source : Option ℕ} {text : String}
    {pcd : π} (hlistener : s.currentMessageListener = none ∨ s.currentMessageListener = some r)
    (hopener : ∀ w, source = some w → s.openers[w]? = some r)
    (hdone : ∀ q, s.requests[r]? = some q → deserialize q.pkg text = some pcd ∧
      .posting source (some ⟨q.pkg, text⟩) ∈ events) :
    Owned deserialize events (s.complete r source pcd) := by
  set s₁ : PassportPage π := { s.removeListener r with currentMessageListener := none } with hs₁
  obtain ⟨hrequests, hopeners, hlisteners, hcleared, hposted, hdes⟩ := s₁.clearPopup_frame
  have howned : Owned deserialize events s₁.clearPopup := by
    refine ⟨?_, ?_, ?_, ?_, ?_⟩
    · rw [hcleared, PassportPage.currentPopup_clearPopup]
      rfl
    · -- the only listener was this request's
      have hall : s.listeners = [] ∨ s.listeners = [r] := by
        rw [h.listeners]
        rcases hlistener with hnone | hsome
        · rw [hnone]
          exact .inl rfl
        · rw [hsome]
          exact .inr rfl
      rw [hlisteners, hcleared, hs₁]
      rcases hall with hall | hall <;> simp [PassportPage.removeListener, hall]
    · intro w' pcd' hm
      rw [hposted] at hm
      exact ⟨fun _ _ => .inl s₁.currentPopup_clearPopup, (h.posted w' pcd' hm).2⟩
    · intro r' w' text' hd
      rw [hdes] at hd
      obtain ⟨-, hopener', pkg, hpkg, hpost⟩ := h.deserializing r' w' text' hd
      exact ⟨.inl hcleared, by rwa [hopeners], pkg, by rwa [PassportPage.pkgs, hrequests], hpost⟩
    · intro r' q pcd' w' hq hout
      rw [hrequests] at hq
      rw [hopeners]
      exact h.answered r' q pcd' w' hq hout
  refine howned.settle fun q pcd' w' hq hout => ?_
  obtain ⟨rfl, rfl⟩ := Outcome.resolved.inj hout
  rw [hrequests] at hq
  obtain ⟨hpcd, hpost⟩ := hdone q hq
  refine ⟨by rwa [hopeners], _, hpost, ?_⟩
  rw [Answers, if_pos rfl]
  exact ⟨Option.some_ne_none _, hpcd⟩

theorem Owned.deserialized (h : Owned deserialize events s) (k : ℕ) :
    Owned deserialize events (s.deserialized deserialize k) := by
  unfold PassportPage.deserialized
  split
  · exact h
  · next r source text hk =>
      have hrest : Owned deserialize events
          { s with deserializing := s.deserializing.eraseIdx k } :=
        { h with deserializing := fun r' w' text' hd =>
            h.deserializing r' w' text' (List.mem_of_mem_eraseIdx hd) }
      obtain ⟨hlistener, hopener, pkg, hpkg, hpost⟩ :=
        h.deserializing r source text (List.mem_of_getElem? hk)
      have hof : ∀ q, s.requests[r]? = some q → q.pkg = pkg := by
        intro q hq
        rw [PassportPage.pkgs, List.getElem?_map, hq] at hpkg
        exact Option.some.inj hpkg
      dsimp only
      split
      · refine hrest.settle fun q pcd w' hq hout => ?_
        cases hout
      · next pcd hpcd =>
          have hdone : ∀ q, s.requests[r]? = some q → deserialize q.pkg text = some pcd ∧
              .posting source (some ⟨q.pkg, text⟩) ∈ events := by
            intro q hq
            obtain ⟨q', hq', hpcd⟩ := Option.bind_eq_some_iff.mp hpcd
            obtain rfl := Option.some.inj (hq.symm.trans hq')
            exact ⟨hpcd, hof q hq ▸ hpost⟩
          exact hrest.complete hlistener hopener hdone

theorem Owned.cleanup (h : Owned deserialize events s) (hquiet : s.Quiet) :
    s.cleanup.requests = s.requests ∧ s.cleanup.openers = s.openers ∧ s.cleanup.listeners = [] ∧
      s.cleanup.currentMessageListener = none ∧ s.cleanup.currentPopup = none ∧
      s.cleanup.posted = [] ∧ s.cleanup.deserializing = [] := by
  have hlisteners := h.listeners
  unfold PassportPage.cleanup
  split
  · next hnone =>
      obtain ⟨h₁, h₂, h₃, h₄, h₅, h₆⟩ := s.clearPopup_frame
      rw [hnone] at hlisteners
      exact ⟨h₁, h₂, h₃.trans hlisteners, h₄.trans hnone, s.currentPopup_clearPopup,
        h₅.trans hquiet.1, h₆.trans hquiet.2⟩
  · next listener hsome =>
      obtain ⟨h₁, h₂, h₃, h₄, h₅, h₆⟩ := PassportPage.clearPopup_frame
        (s := { s.removeListener listener with currentMessageListener := none })
      rw [hsome] at hlisteners
      refine ⟨h₁, h₂, h₃.trans ?_, h₄, PassportPage.currentPopup_clearPopup, h₅.trans hquiet.1,
        h₆.trans hquiet.2⟩
      simp [PassportPage.removeListener, hlisteners]

/-- A popup opens where there is no listener and nothing under way. -/
theorem Owned.opens (h : Owned deserialize events s) (hlisteners : s.listeners = [])
    (hquiet : s.Quiet) (request : ℕ) : Owned deserialize events
      { s with
        popups := s.popups ++ [({ request } : Popup)]
        currentPopup := some s.popups.length
        listeners := s.listeners ++ [request]
        currentMessageListener := some request } where
  paired := by simp [PassportPage.openers]
  listeners := by rw [hlisteners]; rfl
  posted w pcd hm := by
    rw [hquiet.1] at hm
    cases hm
  deserializing r w text hd := by
    rw [hquiet.2] at hd
    cases hd
  answered r q pcd w hq hout := by
    obtain ⟨hopener, hd⟩ := h.answered r q pcd w hq hout
    refine ⟨fun w hw => ?_, hd⟩
    obtain ⟨hlt, -⟩ := List.getElem?_eq_some_iff.mp (hopener w hw)
    rw [PassportPage.openers, List.map_append]
    exact (List.getElem?_append_left hlt).trans (hopener w hw)

/-- A request that finds nothing under way starts afresh. -/
theorem Owned.getPCDFromPassport (h : Owned deserialize events s) (hquiet : s.Quiet) (pkg : String)
    (opens : Bool) : Owned deserialize events (s.getPCDFromPassport pkg opens) := by
  obtain ⟨hrequests, hopeners, hlisteners, hlistener, hpopup, hposted, hdes⟩ := h.cleanup hquiet
  have hstart : Owned deserialize events
      { s.cleanup with requests := s.requests ++ [({ pkg } : PCDCall π)] } := by
    refine ⟨?_, ?_, ?_, ?_, ?_⟩
    · rw [hlistener, hpopup]
      rfl
    · rw [hlisteners, hlistener]
      rfl
    · intro w pcd hm
      rw [hposted] at hm
      cases hm
    · intro r w text hd
      rw [hdes] at hd
      cases hd
    · intro r q pcd w hq hout
      show (∀ w', w = some w' → s.cleanup.openers[w']? = some r) ∧ _
      rw [hopeners]
      rcases Nat.lt_or_ge r s.requests.length with hr | hr
      · rw [List.getElem?_append_left hr] at hq
        exact h.answered r q pcd w hq hout
      · rw [List.getElem?_append_right hr, List.getElem?_singleton] at hq
        split at hq
        · obtain rfl := Option.some.inj hq
          cases hout
        · cases hq
  unfold PassportPage.getPCDFromPassport
  cases opens with
  | true => exact hstart.opens hlisteners ⟨hposted, hdes⟩ s.requests.length
  | false =>
      refine hstart.settle fun q pcd w hq hout => ?_
      cases hout

theorem Owned.step (h : Owned deserialize events s) (e : PassportEvent)
    (hok : ∀ pkg opens, e = .getPCDFromPassport pkg opens → s.Quiet) (hcurrent : s.OnlyCurrent) :
    Owned deserialize (events ++ [e]) (s.step deserialize e) := by
  cases e with
  | getPCDFromPassport pkg opens =>
      exact (h.mono _).getPCDFromPassport (hok pkg opens rfl) pkg opens
  | post popup pcd =>
      show Owned deserialize _ (if _ then _ else _)
      split
      · next hopen =>
          obtain ⟨p, hp, hclosed⟩ := Option.any_eq_true _ _ |>.mp hopen
          refine { (h.mono _).closePopup popup with posted := fun w pcd' hm => ?_ }
          rcases List.mem_append.mp hm with hm | hm
          · exact ((h.mono _).closePopup popup).posted w pcd' hm
          · obtain ⟨rfl, rfl⟩ := Prod.mk.inj (List.mem_singleton.mp hm)
            refine ⟨fun w' hw' => ?_, List.mem_append_right _ (List.mem_singleton_self _)⟩
            obtain rfl := Option.some.inj hw'
            exact .inr (hcurrent popup p hp (by simpa using hclosed))
      · exact h.mono _
  | postElsewhere pcd =>
      refine { h.mono _ with posted := fun source pcd' hm => ?_ }
      rcases List.mem_append.mp hm with hm | hm
      · exact (h.mono _).posted source pcd' hm
      · obtain ⟨rfl, rfl⟩ := Prod.mk.inj (List.mem_singleton.mp hm)
        exact ⟨by simp, List.mem_append_right _ (List.mem_singleton_self _)⟩
  | message => exact (h.mono _).message
  | deserialized k => exact (h.mono _).deserialized k
  | close popup => exact (h.mono _).closePopup popup

/-- Where requests start only when nothing is on its way to an earlier one, there is at most one
    listener, and a request is resolved, after its own package has deserialized it, with what the
    popup that it opened has posted, or else with what a window has posted that is no popup of the
    page; a PCD of another type is answered with `undefined`. -/
theorem answered_by_own_popup (h : PassportRun deserialize PassportPage.Quiet events s) :
    s.listeners.length ≤ 1 ∧
      ∀ r q pcd source, s.requests[r]? = some q → q.outcome = .resolved pcd source →
        (∀ w, source = some w → s.openers[w]? = some r) ∧
        ((∀ pcd, .postElsewhere pcd ∉ events) → source ≠ none) ∧
        ∃ d, .posting source (some d) ∈ events ∧ Answers deserialize q.pkg d pcd := by
  have howned : Owned deserialize events s := by
    induction h with
    | init => exact owned_init
    | step hrun e hok ih => exact ih.step e hok hrun.onlyCurrent
  refine ⟨?_, fun r q pcd source hq hout => ?_⟩
  · rw [howned.listeners]
    cases s.currentMessageListener <;> simp
  · obtain ⟨hopener, d, hposted, hanswers⟩ := howned.answered r q pcd source hq hout
    refine ⟨hopener, ?_, d, hposted, hanswers⟩
    rintro hnone rfl
    exact hnone _ hposted

end

/-- Two requests, one after the other; the first gets its PCD from its popup, and the second one
    from elsewhere. -/
def twoRequests : List PassportEvent :=
  [.getPCDFromPassport "rln-pcd" true, .post 0 (some ⟨"rln-pcd", "proof"⟩), .message,
    .deserialized 0, .getPCDFromPassport "rln-pcd" true,
    .postElsewhere (some ⟨"rln-pcd", "other"⟩), .message, .deserialized 0]

/-- The page of a package that takes every text. -/
def pageAfter (events : List PassportEvent) : PassportPage String :=
  events.foldl (PassportPage.step fun _ text => some text) {}

theorem passportRun_twoRequests : PassportRun (fun _ text => some text) PassportPage.Quiet
    twoRequests (pageAfter twoRequests) := by
  refine (((((((PassportRun.init.step _ ?_).step _ ?_).step _ ?_).step _ ?_).step _ ?_).step _
    ?_).step _ ?_).step _ ?_
  · exact fun _ _ _ => ⟨rfl, rfl⟩
  · exact fun _ _ he => by cases he
  · exact fun _ _ he => by cases he
  · exact fun _ _ he => by cases he
  · exact fun _ _ _ => ⟨rfl, rfl⟩
  · exact fun _ _ he => by cases he
  · exact fun _ _ he => by cases he
  · exact fun _ _ he => by cases he

theorem one_popup_of_two : (pageAfter twoRequests).popups.countP (!·.closed) ≤ 1 :=
  one_popup passportRun_twoRequests

/-- What the two are resolved with. -/
theorem answered_by_own_popup_of_two : (pageAfter twoRequests).listeners.length ≤ 1 ∧
    (pageAfter twoRequests).openers[0]? = some 0 ∧
    (∃ d, .post 0 (some d) ∈ twoRequests ∧
      Answers (fun _ text => some text) "rln-pcd" d (some "proof")) ∧
    ∃ d, .postElsewhere (some d) ∈ twoRequests ∧
      Answers (fun _ text => some text) "rln-pcd" d (some "other") := by
  obtain ⟨hone, hall⟩ := answered_by_own_popup passportRun_twoRequests
  obtain ⟨hopener, -, hfirst⟩ := hall 0 ⟨"rln-pcd", .resolved (some "proof") (some 0)⟩ _ _ rfl rfl
  obtain ⟨-, -, hsecond⟩ := hall 1 ⟨"rln-pcd", .resolved (some "other") none⟩ _ _ rfl rfl
  exact ⟨hone, hopener 0 rfl, hfirst, hsecond⟩

/-- A request that starts during a deserialization: the next one registers a second listener. -/
example : (pageAfter [.getPCDFromPassport "rln-pcd" true, .post 0 (some ⟨"rln-pcd", "proof"⟩),
    .message, .getPCDFromPassport "rln-pcd" true, .deserialized 0,
    .getPCDFromPassport "rln-pcd" true]).listeners = [1, 2] := by
  decide

end ZkChat
