import Conduit.Bgen.Accepted
import Conduit.Data.Intervals

/-!
# Overlapping cases

`check_case_overlap` sorts the cases of each direction by their lower bounds and compares
neighbours. That is enough to find any two cases with a number in common.
-/

namespace Conduit.Bgen

open Validator Data Direction List

/-- A case text that the check can read: a number, or two numbers in order around `..`. -/
structure CaseAttrs.Resolves (index : TypeIndex) (cs : CaseAttrs) : Prop where
  value : ∀ text, cs.value = some text → ∃ n, caseNumber index text = some n
  range : ∀ text, cs.range = some text → ∃ lo hi a b, splitRange text.toList = some (lo, hi)
    ∧ lo ≠ [] ∧ hi ≠ [] ∧ caseNumber index (String.ofList lo) = some a
    ∧ caseNumber index (String.ofList hi) = some b ∧ a ≤ b

/-- The case matches the number. A value is looked at before a range. -/
def CaseAttrs.Matches (index : TypeIndex) (cs : CaseAttrs) (n : Int) : Prop :=
  match cs.value, cs.range with
  | some text, _ => caseNumber index text = some n
  | none, some text => ∃ lo hi a b, splitRange text.toList = some (lo, hi)
      ∧ caseNumber index (String.ofList lo) = some a
      ∧ caseNumber index (String.ofList hi) = some b ∧ a ≤ n ∧ n ≤ b
  | none, none => False

/-- Cases without direction belong to both lanes. -/
def Direction.InLane (lane d : Direction) : Prop := d = .both ∨ d = lane

/-- The directions have a lane in common. -/
def Direction.ShareLane (d d' : Direction) : Prop :=
  (InLane .send d ∧ InLane .send d') ∨ (InLane .receive d ∧ InLane .receive d')

theorem Direction.ShareLane.symm {d d' : Direction} (h : ShareLane d d') : ShareLane d' d :=
  h.imp And.symm And.symm

namespace Validator

/-- Two ranges of cases have a number in common. -/
abbrev CaseRange.Meet (r r' : CaseRange) : Prop := Data.Meet CaseRange.lo CaseRange.hi r r'

theorem overlaps_eq_zero_iff (lane : List CaseRange) :
    overlaps lane = 0 ↔ lane.IsChain fun a b => a.hi < b.lo := by
  induction lane with
  | nil => simp [overlaps]
  | cons a rest ih =>
    cases rest with
    | nil => simp [overlaps]
    | cons b rest =>
      rw [overlaps, isChain_cons_cons, Nat.add_eq_zero_iff, ih]
      simp

/-- A lane is reported if two of its ranges meet. The order of ranges with one lower bound, which
`std::sort` leaves open, plays no part. -/
theorem checkLane_eq_nil_iff {choice : String} {lane : List CaseRange}
    (h : ∀ r ∈ lane, r.lo ≤ r.hi) :
    checkLane choice lane = [] ↔ lane.Pairwise fun r r' => ¬r.Meet r' := by
  have htotal : Std.Total fun a b : CaseRange => a.lo ≤ b.lo := ⟨fun a b => Int.le_total a.lo b.lo⟩
  have htrans : IsTrans CaseRange fun a b => a.lo ≤ b.lo := ⟨fun _ _ _ => Int.le_trans⟩
  rw [checkLane, replicate_eq_nil_iff, overlaps_eq_zero_iff]
  exact isChain_iff_pairwise_not_meet (perm_insertionSort _ _) (pairwise_insertionSort _ _) h

variable {index : TypeIndex} {choice : String} {cs : CaseAttrs} {cases : List CaseAttrs}

theorem caseRange_of_resolves (choice : String) (h : cs.Resolves index) :
    ∃ range, caseRange index choice cs = ([], range)
      ∧ (∀ r, range = some r → r.lo ≤ r.hi ∧ r.direction = cs.direction)
      ∧ ∀ n, cs.Matches index n ↔ ∃ r, range = some r ∧ r.lo ≤ n ∧ n ≤ r.hi := by
  unfold caseRange CaseAttrs.Matches
  cases hvalue : cs.value with
  | some text =>
    obtain ⟨m, hm⟩ := h.value text hvalue
    refine ⟨some ⟨m, m, cs.direction⟩, by simp [hm], ?_, ?_⟩
    · rintro r ⟨⟩
      exact ⟨Int.le_refl m, rfl⟩
    intro n
    simp only [hm, Option.some.injEq, exists_eq_left']
    omega
  | none =>
    cases hrange : cs.range with
    | none => exact ⟨none, rfl, by simp, by simp⟩
    | some text =>
      obtain ⟨lo, hi, a, b, hsplit, hlo, hhi, ha, hb, hle⟩ := h.range text hrange
      refine ⟨some ⟨a, b, cs.direction⟩, ?_, ?_, ?_⟩
      · have hread : ∀ {part : List Char} {m : Int},
            caseNumber index (String.ofList part) = some m →
            ((parseLiteral (String.ofList part)).isNone
              && (index.constant? (String.ofList part)).isNone) = false := by
          intro part m hm
          unfold caseNumber at hm
          cases hliteral : parseLiteral (String.ofList part) with
          | some v => rfl
          | none =>
            rw [hliteral] at hm
            cases hconst : index.constant? (String.ofList part) with
            | some c => rfl
            | none =>
              rw [hconst] at hm
              cases hm
        have hinverted : decide (a > b) = false := by simpa using hle
        simp [hsplit, hlo, hhi, ha, hb, hread ha, hread hb, errorIf, hinverted]
      · rintro r ⟨⟩
        exact ⟨hle, rfl⟩
      · intro n
        simp [hsplit, ha, hb]

/-- Both cases match some number. -/
def Overlap (index : TypeIndex) (cs cs' : CaseAttrs) : Prop :=
  ∃ n, cs.Matches index n ∧ cs'.Matches index n

theorem checkLane_ranges_eq_nil_iff (h : ∀ cs ∈ cases, cs.Resolves index) (p : Direction → Bool) :
    checkLane choice
        (((cases.map (caseRange index choice)).filterMap (·.2)).filter fun r => p r.direction) = []
      ↔ cases.Pairwise fun cs cs' =>
        ¬((p cs.direction = true ∧ p cs'.direction = true) ∧ Overlap index cs cs') := by
  have hordered : ∀ r ∈ ((cases.map (caseRange index choice)).filterMap (·.2)).filter
      fun r => p r.direction, r.lo ≤ r.hi := by
    intro r hr
    obtain ⟨result, hresult, hsome⟩ := mem_filterMap.mp (mem_filter.mp hr).1
    obtain ⟨cs, hcs, rfl⟩ := mem_map.mp hresult
    obtain ⟨range, hrange, hspec, -⟩ := caseRange_of_resolves choice (h cs hcs)
    rw [hrange] at hsome
    exact (hspec r hsome).1
  rw [checkLane_eq_nil_iff hordered, pairwise_filter, pairwise_filterMap, pairwise_map]
  refine Pairwise.iff_of_mem ?_
  intro cs cs' hcs hcs'
  obtain ⟨range, hrange, hspec, hmatches⟩ := caseRange_of_resolves choice (h cs hcs)
  obtain ⟨range', hrange', hspec', hmatches'⟩ := caseRange_of_resolves choice (h cs' hcs')
  simp only [hrange, hrange', Overlap, hmatches, hmatches']
  constructor
  · rintro hapart ⟨⟨hp, hp'⟩, n, ⟨r, rfl, hr⟩, r', rfl, hr'⟩
    refine hapart r rfl r' rfl ?_ ?_ ⟨n, hr, hr'⟩
    · rw [(hspec r rfl).2]
      exact hp
    · rw [(hspec' r' rfl).2]
      exact hp'
  · rintro hnot r rfl r' rfl hp hp' ⟨n, hr, hr'⟩
    rw [(hspec r rfl).2] at hp
    rw [(hspec' r' rfl).2] at hp'
    exact hnot ⟨⟨hp, hp'⟩, n, ⟨r, rfl, hr⟩, r', rfl, hr'⟩

theorem inLane_iff {lane d : Direction} : (d == .both || d == lane) = true ↔ InLane lane d := by
  simp [InLane]

/-- Where all cases can be read, the check reports an overlap exactly if two cases of one lane match
one number. -/
theorem overlap_reported_iff (h : ∀ cs ∈ cases, cs.Resolves index) :
    s!"choice '{choice}': case values overlap" ∈ checkCaseOverlap index choice cases ↔
      ∃ (i j : Nat) (cs cs' : CaseAttrs), i ≠ j ∧ cases[i]? = some cs ∧ cases[j]? = some cs'
        ∧ ShareLane cs.direction cs'.direction
        ∧ ∃ n, cs.Matches index n ∧ cs'.Matches index n := by
  have htexts : (cases.map (caseRange index choice)).flatMap (·.1) = [] := by
    refine flatMap_eq_nil_iff.mpr ?_
    intro result hresult
    obtain ⟨cs, hcs, rfl⟩ := mem_map.mp hresult
    obtain ⟨range, hrange, -⟩ := caseRange_of_resolves choice (h cs hcs)
    rw [hrange]
  have hlane : ∀ lane, s!"choice '{choice}': case values overlap" ∈ checkLane choice lane
      ↔ checkLane choice lane ≠ [] := by
    intro lane
    unfold checkLane
    rw [mem_replicate, ne_eq, ne_eq, replicate_eq_nil_iff]
    exact and_iff_left rfl
  have hsymm : ∀ {cs cs' : CaseAttrs}, ShareLane cs.direction cs'.direction
      ∧ Overlap index cs cs' → ShareLane cs'.direction cs.direction
      ∧ Overlap index cs' cs := by
    rintro cs cs' ⟨hshare, n, hn, hn'⟩
    exact ⟨hshare.symm, n, hn', hn⟩
  rw [checkCaseOverlap, htexts, nil_append, mem_append, hlane, hlane, ← not_and_or,
    checkLane_ranges_eq_nil_iff h (fun d => d == .both || d == .send),
    checkLane_ranges_eq_nil_iff h (fun d => d == .both || d == .receive), ← pairwise_and_iff]
  refine Iff.trans (not_congr (Pairwise.iff_of_mem ?_)) (not_pairwise_not_iff hsymm)
  intro cs cs' _ _
  simp only [inLane_iff, ShareLane, or_and_right, not_or]

def windowIndex : TypeIndex := { constants := [{ name := "LAST", typeRef := "", value := "0x20" }] }

def windowCases : List CaseAttrs :=
  [{ name := "a", range := some "1..LAST" }, { name := "b", value := some "40" },
    { name := "c", value := some "17", direction := .send }]

theorem overlap_reported_iff_window : (∀ cs ∈ windowCases, cs.Resolves windowIndex)
      ∧ "choice 'body': case values overlap" ∈ checkCaseOverlap windowIndex "body" windowCases := by
  have hresolves : ∀ cs ∈ windowCases, cs.Resolves windowIndex := by
    intro cs hcs
    simp only [windowCases, mem_cons, not_mem_nil, or_false] at hcs
    rcases hcs with rfl | rfl | rfl
    · refine ⟨by simp, ?_⟩
      rintro text ⟨⟩
      exact ⟨['1'], ['L', 'A', 'S', 'T'], 1, 32, by decide⟩
    · refine ⟨?_, by simp⟩
      rintro text ⟨⟩
      exact ⟨40, by decide⟩
    · refine ⟨?_, by simp⟩
      rintro text ⟨⟩
      exact ⟨17, by decide⟩
  refine ⟨hresolves, (overlap_reported_iff hresolves).mpr ?_⟩
  -- the first and the last case, in the lane for sending
  refine ⟨0, 2, _, _, by decide, rfl, rfl, Or.inl ⟨Or.inl rfl, Or.inr rfl⟩, 17, ?_, ?_⟩
  · exact ⟨['1'], ['L', 'A', 'S', 'T'], 1, 32, by decide⟩
  show caseNumber windowIndex "17" = some 17
  decide

end Validator

end Conduit.Bgen
