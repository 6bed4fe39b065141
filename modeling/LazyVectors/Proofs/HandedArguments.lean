import Mathlib.Data.List.Chain
import LazyVectors.Proofs.Reachability
import LazyVectors.Proofs.Walks
/-!
Arguments that are handed on by their bare names from call to call. A question for such an
argument comes to the place where it was given first, whatever calls are in between, since the
marks of the walk are all on promises behind it.
-/

set_option autoImplicit false

namespace LazyVectors

namespace Heap

variable {h : Heap} {roots : List Handle} {inner outer place start : FrameId × String}
  {mark : Option PromiseId} {first later : Bool}

/-- The name of the inner place is bound to an argument that was supplied by the bare name of the
outer one, in a frame that is alive, and has yet to be evaluated. -/
def HandedOn (h : Heap) (roots : List Handle) (inner outer : FrameId × String) : Prop :=
  ∃ p r, h.local? inner.1 inner.2 = some (.promise p) ∧ h.promises[p]? = some r ∧
    r.isDefault = false ∧ r.state = .unevaluated ∧ r.expr = .lookup outer.2 ∧
    r.frame = some outer.1 ∧ h.alive roots outer.1 = true

/-- A binding that leads no further: whether the argument is missing when the question is put
there first, and when it comes from elsewhere. -/
inductive Given (h : Heap) (place : FrameId × String) : Bool → Bool → Prop where
  | unbound (hb : h.local? place.1 place.2 = none) : Given h place false false
  | missing (hb : h.local? place.1 place.2 = some .missing) : Given h place true true
  | value (x : Value) (hb : h.local? place.1 place.2 = some (.value x)) : Given h place false false
  | promise (p : PromiseId) (r : Promise) (hb : h.local? place.1 place.2 = some (.promise p))
    (hr : h.promises[p]? = some r) (hu : r.state ≠ .underEvaluation) (he : r.expr.name? = none) :
    Given h place r.isDefault false

theorem Given.verdict (hg : h.Given place first later) (roots : List Handle) (level : Nat) :
    h.verdict roots place.2 place.1 level = .settled (if level = 0 then first else later) := by
  cases hg with
  | unbound hb => simp [Heap.verdict, hb]
  | missing hb => simp [Heap.verdict, hb]
  | value x hb => simp [Heap.verdict, hb]
  | promise p r hb hr hu he =>
    by_cases hlevel : level = 0
    · cases hdefault : r.isDefault <;>
        simp [Heap.verdict, promiseVerdict, hb, hr, hu, he, hlevel, hdefault]
    · simp [Heap.verdict, promiseVerdict, hb, hr, hu, he, hlevel]

theorem HandedOn.verdict (ho : h.HandedOn roots inner outer) (level : Nat) :
    ∃ mark, h.verdict roots inner.2 inner.1 level = .forwarded outer.2 outer.1 mark ∧
      ∀ p ∈ mark, ∃ r, h.promises[p]? = some r ∧ r.expr = .lookup outer.2 ∧
        r.frame = some outer.1 := by
  obtain ⟨p, r, hb, hr, hdefault, hstate, hexpr, hframe, halive⟩ := ho
  have hf : h.frameOf? roots r = some outer.1 := by simp [frameOf?, hframe, halive]
  by_cases horigin : h.origin? outer.1 = h.origin? inner.1
  · refine ⟨some p, ?_, fun q hq => ?_⟩
    · simp [Heap.verdict, promiseVerdict, hb, hr, hdefault, hstate, hexpr, hf, Expr.name?, horigin]
    · cases hq
      exact ⟨r, hr, hexpr, hframe⟩
  · refine ⟨none, ?_, fun q hq => by cases hq⟩
    simp [Heap.verdict, promiseVerdict, hb, hr, hdefault, hstate, hexpr, hf, Expr.name?, horigin]

@[simp] theorem alive_marked (h : Heap) (mark : Option PromiseId) :
    (h.marked mark).alive = h.alive := by
  cases mark with
  | none => rfl
  | some p => exact alive_setState h p _

theorem getElem?_marked_of_ne {p : PromiseId} (hp : p ∉ mark) :
    (h.marked mark).promises[p]? = h.promises[p]? := by
  cases mark with
  | none => rfl
  | some q =>
    have hne : q ≠ p := fun hq => hp (congrArg some hq)
    rw [marked, getElem?_setState, if_neg hne]

theorem HandedOn.marked (ho : h.HandedOn roots inner outer)
    (hmark : ∀ p ∈ mark, ∀ r, h.promises[p]? = some r → r.frame ≠ some outer.1) :
    (h.marked mark).HandedOn roots inner outer := by
  obtain ⟨p, r, hb, hr, hdefault, hstate, hexpr, hframe, halive⟩ := ho
  have hp : p ∉ mark := fun hp => hmark p hp r hr hframe
  refine ⟨p, r, ?_, ?_, hdefault, hstate, hexpr, hframe, ?_⟩
  · rwa [local?_congr (frames_marked h mark)]
  · rwa [getElem?_marked_of_ne hp]
  · rwa [alive_marked]

theorem Given.marked (hg : h.Given place first later)
    (hmark : ∀ p ∈ mark, ∀ r, h.promises[p]? = some r → r.expr.name? ≠ none) :
    (h.marked mark).Given place first later := by
  have hlocal := local?_congr (frames_marked h mark) place.1 place.2
  cases hg with
  | unbound hb => exact .unbound (hlocal.trans hb)
  | missing hb => exact .missing (hlocal.trans hb)
  | value x hb => exact .value x (hlocal.trans hb)
  | promise p r hb hr hu he =>
    have hp : p ∉ mark := fun hp => hmark p hp r hr he
    exact .promise p r (hlocal.trans hb) (by rwa [getElem?_marked_of_ne hp]) hu he

/-- A walk along names that are handed on ends where the last of them was given. Each promise that
it marks belongs to the frame of the next place, to which no later one leads. -/
theorem walk_chain {chain : List (FrameId × String)}
    (hchain : (start :: chain).IsChain (h.HandedOn roots))
    (hdistinct : ((start :: chain).map Prod.fst).Nodup)
    (hgiven : h.Given ((start :: chain).getLast (List.cons_ne_nil _ _)) first later)
    (level : Nat) :
    walk roots (chain.length + 1) h start.2 start.1 level =
      some (if level = 0 ∧ chain = [] then first else later, h) := by
  induction chain generalizing h start level with
  | nil =>
    rw [List.getLast_singleton] at hgiven
    simp [walk_succ, hgiven.verdict]
  | cons next rest ih =>
    obtain ⟨hnext, hrest⟩ := List.isChain_cons_cons.1 hchain
    obtain ⟨-, hdistinct⟩ := List.nodup_cons.1 hdistinct
    obtain ⟨mark, hverdict, hmark⟩ := hnext.verdict level
    -- the mark is on a promise of the next frame, and no later link starts from that frame
    have hchain' : (next :: rest).IsChain ((h.marked mark).HandedOn roots) := by
      refine hrest.imp_of_mem_tail_imp fun a b _ hb hab => hab.marked fun p hp r hr hframe => ?_
      obtain ⟨r', hr', -, hframe'⟩ := hmark p hp
      cases hr.symm.trans hr'
      have hsame : next.1 = b.1 := Option.some.inj (hframe'.symm.trans hframe)
      exact (List.nodup_cons.1 hdistinct).1 (hsame ▸ List.mem_map_of_mem hb)
    have hgiven' : (h.marked mark).Given ((next :: rest).getLast (List.cons_ne_nil _ _)) first
        later := by
      rw [List.getLast_cons_cons] at hgiven
      refine hgiven.marked fun p hp r hr hname => ?_
      obtain ⟨r', hr', hexpr, -⟩ := hmark p hp
      cases hr.symm.trans hr'
      simp [hexpr, Expr.name?] at hname
    rw [List.length_cons, walk_succ, hverdict]
    simp [ih hchain' hdistinct hgiven' (level + 1)]

end Heap

/-- Let a name be handed on through any number of calls, in frames that are all different, from the
place where the question is put to the place where an argument was given first. The argument is
missing if nothing was given there. A default makes it missing only if no call is in between. It is
not missing if the name is not bound there, or to a value, or to a supplied argument that is no bare
name. A promise that is under evaluation leaves the answer open. -/
theorem missing_sees_through_chain (h : Heap) (roots : List Handle) (start : FrameId × String)
    (chain : List (FrameId × String)) (hchain : (start :: chain).IsChain (h.HandedOn roots))
    (hdistinct : ((start :: chain).map Prod.fst).Nodup) :
    let given := (start :: chain).getLast (List.cons_ne_nil _ _)
    let binding := h.local? given.1 given.2
    let answer := h.isMissing? roots start.2 start.1 0
    (binding = some .missing → answer = some (true, h)) ∧
    (∀ p r, binding = some (.promise p) → h.promises[p]? = some r →
      r.state ≠ .underEvaluation → r.expr.name? = none → r.isDefault = true →
        answer = some (decide (chain = []), h)) ∧
    (binding = none → answer = some (false, h)) ∧
    (∀ x, binding = some (.value x) → answer = some (false, h)) ∧
    ∀ p r, binding = some (.promise p) → h.promises[p]? = some r →
      r.state ≠ .underEvaluation → r.expr.name? = none → r.isDefault = false →
        answer = some (false, h) := by
  intro given binding answer
  -- all cases are one walk along the chain, which the given binding ends
  have hanswer {first later : Bool} (hgiven : h.Given given first later) :
      answer = some (if chain = [] then first else later, h) := by
    have hwalk := Heap.walk_chain hchain hdistinct hgiven 0
    simp only [true_and] at hwalk
    exact Heap.walk_within_bound hwalk
  refine ⟨fun hb => ?_, fun p r hb hr hu he hdefault => ?_, fun hb => ?_, fun x hb => ?_,
    fun p r hb hr hu he hsupplied => ?_⟩
  · simpa using hanswer (.missing hb)
  · have hpromise := hanswer (.promise p r hb hr hu he)
    rw [hdefault] at hpromise
    simpa using hpromise
  · simpa using hanswer (.unbound hb)
  · simpa using hanswer (.value x hb)
  · have hpromise := hanswer (.promise p r hb hr hu he)
    rw [hsupplied] at hpromise
    simpa using hpromise

def handedDown : Heap where
  frames := #[⟨.top 0, none, []⟩, ⟨.call 0, some 0, [("x", .promise 0)]⟩,
    ⟨.call 0, some 0, [("x", .promise 1)]⟩, ⟨.call 1, some 0, [("y", .promise 2)]⟩]
  promises := #[.default (.constant .null) 1, .argument (.lookup "x") 1,
    .argument (.lookup "x") 2]

/-- The default is missing where it stands, and not where it comes in from further calls. -/
theorem missing_sees_through_chain_handedDown :
    [(3, "y"), (2, "x"), (1, "x")].IsChain (handedDown.HandedOn [.frame 3]) ∧
      handedDown.isMissing? [.frame 3] "y" 3 0 = some (false, handedDown) ∧
      handedDown.isMissing? [.frame 3] "x" 1 0 = some (true, handedDown) := by
  have hchain : [(3, "y"), (2, "x"), (1, "x")].IsChain (handedDown.HandedOn [.frame 3]) := by
    simp only [List.isChain_cons_cons, List.isChain_singleton, and_true]
    exact ⟨⟨2, _, rfl, rfl, rfl, rfl, rfl, rfl, rfl⟩, ⟨1, _, rfl, rfl, rfl, rfl, rfl, rfl, rfl⟩⟩
  obtain ⟨-, hdeep, -⟩ := missing_sees_through_chain handedDown [.frame 3] (3, "y")
    [(2, "x"), (1, "x")] hchain (by decide)
  obtain ⟨-, hhere, -⟩ := missing_sees_through_chain handedDown [.frame 3] (1, "x") []
    (List.isChain_singleton _) (by decide)
  exact ⟨hchain, hdeep 0 _ rfl rfl (by decide) rfl rfl, hhere 0 _ rfl rfl (by decide) rfl rfl⟩

end LazyVectors
