import Wadjet.Storage.Catalog.ManifestCommit

namespace Wadjet.Storage.Catalog

open Wadjet.Data List

section Runs

variable {Caller Row : Type} [DecidableEq Caller] [DecidableEq Row]

def commitLoop (calls : Caller → Call) : CasLoop Caller PartitionManifest CommitError where
  attempts := 10
  exhausted := .retriesExhausted
  asksNothing caller := (calls caller).asksNothing
  mutate caller := (calls caller).mutate

structure FreshPaths (calls : Caller → Call) (manifest : PartitionManifest) : Prop where
  nodup : ∀ caller, (calls caller).newPaths.Nodup
  distinct : ∀ caller other, caller ≠ other →
    ∀ path ∈ (calls caller).newPaths, path ∉ (calls other).newPaths
  unmentioned : ∀ caller, ∀ path ∈ (calls caller).newPaths, ¬ manifest.Mentions path

def applyAll (content : String → List Row) (calls : Caller → Call) (callers : List Caller)
    (rows : Multiset Row) : Multiset Row :=
  callers.foldl (fun rows caller => (calls caller).apply content rows) rows

variable {content : String → List Row} {calls : Caller → Call}

omit [DecidableEq Caller] in
theorem replay_visible (hfaithful : ∀ caller, (calls caller).Faithful content)
    {callers : List Caller} (hcallers : callers.Nodup) {manifest next : PartitionManifest}
    (hwell : manifest.WellFormed) (hnew : ∀ caller, (calls caller).newPaths.Nodup)
    (hdistinct : ∀ caller other, caller ≠ other →
      ∀ path ∈ (calls caller).newPaths, path ∉ (calls other).newPaths)
    (hfresh : ∀ caller ∈ callers, ∀ path ∈ (calls caller).newPaths, ¬ manifest.Mentions path)
    (h : (commitLoop calls).replay callers manifest = .ok next) :
    visible content next = applyAll content calls callers (visible content manifest) ∧
      ∀ before caller after, callers = before ++ caller :: after →
        (calls caller).removed content ≤
          applyAll content calls before (visible content manifest) := by
  induction callers generalizing manifest with
  | nil =>
    obtain rfl : manifest = next := Except.ok.inj h
    refine ⟨rfl, fun before caller after hsplit => ?_⟩
    simp at hsplit
  | cons caller rest ih =>
    obtain ⟨middle, hmiddle, hrest⟩ := except_bind_ok h
    obtain ⟨hcaller, hrestNodup⟩ := nodup_cons.mp hcallers
    have hcommit := Call.mutate_commits hwell (hfaithful caller) (hnew caller)
      (hfresh caller mem_cons_self) hmiddle
    have hlater : ∀ other ∈ rest, ∀ path ∈ (calls other).newPaths, ¬ middle.Mentions path := by
      intro other hother path hpath hmentions
      obtain hold | hpaths := hcommit.mentions path hmentions
      · exact hfresh other (mem_cons_of_mem _ hother) path hpath hold
      · refine hdistinct other caller ?_ path hpath hpaths
        rintro rfl
        exact hcaller hother
    obtain ⟨hvisible, hremoved⟩ := ih hrestNodup hcommit.wellFormed hlater hrest
    have hstep : visible content middle = (calls caller).apply content (visible content manifest) :=
      hcommit.visible_eq
    rw [hstep] at hvisible hremoved
    refine ⟨hvisible, ?_⟩
    rintro (_ | ⟨first, before⟩) last after hsplit
    · obtain ⟨rfl, rfl⟩ := cons.inj hsplit
      exact hcommit.removes
    · obtain ⟨rfl, rfl⟩ := cons.inj hsplit
      exact hremoved before last after rfl

-- Whatever the order of the single Gets and Updates, the rows a reader sees
-- are those of the successful calls made one at a time in the order of their
-- Updates. Each takes away only rows that are there.
theorem commits_serialize {manifest : PartitionManifest} (hwell : manifest.WellFormed)
    (hfresh : FreshPaths calls manifest) (hfaithful : ∀ caller, (calls caller).Faithful content)
    {state : CasState Caller PartitionManifest CommitError}
    (h : Reachable (CasLoop.starts manifest) (commitLoop calls).step state) :
    visible content state.cell.value =
        applyAll content calls state.succeeded (visible content manifest) ∧
      state.succeeded.Nodup ∧
      (∀ caller, caller ∈ state.succeeded ↔ state.phase caller = .succeeded) ∧
      ∀ before caller after, state.succeeded = before ++ caller :: after →
        (calls caller).removed content ≤
          applyAll content calls before (visible content manifest) := by
  have hlinear := CasLoop.linear_of_reachable
    (fun caller value hasks => Call.mutate_of_asksNothing hasks value) h
  obtain ⟨hvisible, hremoved⟩ := replay_visible hfaithful hlinear.nodup hwell hfresh.nodup
    hfresh.distinct (fun caller _ => hfresh.unmentioned caller) hlinear.replays
  exact ⟨hvisible, hlinear.nodup, hlinear.mem_iff, hremoved⟩

end Runs

-- An INSERT overtakes an UPDATE that has read the manifest, so the UPDATE
-- reads again; then its delete marker is compacted away.
def raceManifest : PartitionManifest :=
  ⟨[⟨"p", [], [⟨"a", true⟩]⟩], [], "i"⟩

def raceCalls : Fin 3 → Call
  | 0 => .commitDML [⟨[], "p", ⟨"b", false⟩⟩] [⟨"a", [0]⟩]
  | 1 => .commitIngest "i" [⟨[], "q", ⟨"d", false⟩⟩]
  | 2 => swapFileForGC "a" (some ⟨"c", false⟩) "p" [0]

def raceContent : String → List Nat
  | "a" => [10, 11]
  | "b" => [12]
  | "c" => [11]
  | "d" => [13, 14]
  | _ => []

def raceStart : CasState (Fin 3) PartitionManifest CommitError :=
  ⟨⟨raceManifest, 1⟩, 2, fun _ => .ready 0, []⟩

def raceEvents : List (CasEvent (Fin 3) CommitError) :=
  [.advance 0, .advance 1, .writeElsewhere, .advance 1, .advance 0, .advance 0, .advance 0,
    .advance 2, .advance 2]

def raceEnd : Option (CasState (Fin 3) PartitionManifest CommitError) :=
  runEvents (commitLoop raceCalls).step raceStart raceEvents

private theorem raceManifest_fresh : FreshPaths raceCalls raceManifest where
  nodup := by decide
  distinct := by decide
  unmentioned := by
    intro caller path hpath
    rintro (hmem | hmem) <;> revert caller path <;> decide

private theorem raceCalls_faithful (caller : Fin 3) :
    (raceCalls caller).Faithful raceContent := by
  match caller with
  | 0 => trivial
  | 1 => trivial
  | 2 => exact (add_zero (raceContent "c" : Multiset Nat)).trans (add_zero _).symm

theorem commits_serialize_race : ∃ state, raceEnd = some state ∧
    state.succeeded = [1, 0, 2] ∧
    visible raceContent state.cell.value =
      applyAll raceContent raceCalls state.succeeded (visible raceContent raceManifest) := by
  have hend : raceEnd.map CasState.succeeded = some [1, 0, 2] := by decide
  obtain ⟨state, hstate, horder⟩ := Option.map_eq_some_iff.mp hend
  have hreach : Reachable (CasLoop.starts raceManifest) (commitLoop raceCalls).step state :=
    (Reachable.start ⟨rfl, by decide, fun _ => rfl, rfl⟩).run raceEvents hstate
  exact ⟨state, hstate, horder, (commits_serialize (by decide) raceManifest_fresh raceCalls_faithful
    hreach).1⟩

end Wadjet.Storage.Catalog
