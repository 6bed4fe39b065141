import LazyVectors.Proofs.CallSetup
import LazyVectors.Proofs.Checkers
import LazyVectors.Proofs.PromiseStates
/-!
Why following an argument comes to an end. Promises are bound by calls only, in the frame of the
call, and belong to that frame or to the one of the caller, which is older. So a step of a walk
leads to an older frame, or it stays in the frame; then the promise belongs to a call of the
same function and gets a mark, which it did not have.
-/

set_option autoImplicit false

namespace LazyVectors

namespace Heap

variable {h h' : Heap} {roots : List Handle} {p : PromiseId} {r : Promise} {f : FrameId}
  {name : String} {frame level n : Nat}

/-- Every promise belongs to a frame there is. A promise bound in a frame does not belong to a
younger one. -/
structure Ordered (h : Heap) : Prop where
  frame : ∀ {p : PromiseId} {r : Promise} {g : FrameId}, h.promises[p]? = some r →
    r.frame = some g → g < h.frames.size
  bound : ∀ {f : FrameId} {name : String} {p : PromiseId},
    h.local? f name = some (.promise p) →
      ∃ r, h.promises[p]? = some r ∧ ∀ g, r.frame = some g → g ≤ f

namespace Ordered

theorem empty (functions : Program) : Ordered { functions := functions } where
  frame hr := by simp at hr
  bound hb := by simp [local?] at hb

theorem of_promises (ho : h.Ordered) (hframes : h'.frames = h.frames)
    (hp : ∀ p : PromiseId, h'.promises[p]?.map Promise.frame = h.promises[p]?.map Promise.frame) :
    h'.Ordered where
  frame {p r' g} hr' hg := by
    have hsame := hp p
    rw [hr', Option.map_some, eq_comm] at hsame
    obtain ⟨r, hr, hframe⟩ := Option.map_eq_some_iff.1 hsame
    rw [hframes]
    exact ho.frame hr (hframe.trans hg)
  bound {f name p} hb := by
    rw [local?_congr hframes] at hb
    obtain ⟨r, hr, hle⟩ := ho.bound hb
    have hsame := hp p
    rw [hr, Option.map_some] at hsame
    obtain ⟨r', hr', hframe⟩ := Option.map_eq_some_iff.1 hsame
    exact ⟨r', hr', fun g hg => hle g (hframe ▸ hg)⟩

theorem setState (ho : h.Ordered) (p : PromiseId) (s : PromiseState) :
    (h.setState p s).Ordered := by
  refine ho.of_promises rfl fun q => ?_
  rw [getElem?_setState]
  split
  · rw [Option.map_map]
    rfl
  · rfl

theorem fulfil (ho : h.Ordered) (p : PromiseId) (x : Value) : (h.fulfil p x).Ordered := by
  refine ho.of_promises rfl fun q => ?_
  rw [getElem?_fulfil]
  split
  · rw [Option.map_map]
    rfl
  · rfl

theorem marked (ho : h.Ordered) (mark : Option PromiseId) : (h.marked mark).Ordered := by
  cases mark with
  | none => exact ho
  | some p => exact ho.setState p _

theorem pushFrame (ho : h.Ordered) (origin : Origin) (parent : Option FrameId) :
    (h.pushFrame ⟨origin, parent, []⟩).2.Ordered where
  frame hr hg := by
    rw [size_frames_pushFrame]
    exact Nat.lt_succ_of_lt (ho.frame hr hg)
  bound {f name p} hb := by
    by_cases hf : f < h.frames.size
    · rw [local?_pushFrame_of_lt hf] at hb
      exact ho.bound hb
    · have hnone : h.frames[f]? = none := Array.getElem?_eq_none (Nat.le_of_not_lt hf)
      by_cases heq : f = h.frames.size
      · simp [local?, Heap.pushFrame, heq] at hb
      · simp [local?, Heap.pushFrame, Array.getElem?_push, heq, hnone] at hb

theorem pushPromise (ho : h.Ordered) (hr : ∀ g, r.frame = some g → g < h.frames.size) :
    (h.pushPromise r).2.Ordered where
  frame {q r' g} hr' hg := by
    rw [getElem?_pushPromise] at hr'
    split at hr'
    · cases hr'
      exact hr g hg
    · exact ho.frame hr' hg
  bound {f name q} hb := by
    obtain ⟨r', hr', hle⟩ := ho.bound hb
    have hq : q ≠ h.promises.size := Nat.ne_of_lt (Array.getElem?_eq_some_iff.1 hr').1
    exact ⟨r', by rw [getElem?_pushPromise, if_neg hq, hr'], hle⟩

theorem define (ho : h.Ordered) (f : FrameId) (name : String) {b : Binding}
    (hb : ∀ p, b = .promise p → ∃ r, h.promises[p]? = some r ∧ ∀ g, r.frame = some g → g ≤ f) :
    (h.define f name b).Ordered where
  frame hr hg := by
    rw [size_frames_define]
    exact ho.frame hr hg
  bound {g other p} hlocal := by
    rw [local?_define] at hlocal
    split at hlocal
    · rename_i hself
      obtain rfl := hself.1
      exact hb p (Option.some.inj hlocal)
    · exact ho.bound hlocal

theorem bindFormals {caller callee : FrameId} (hcaller : caller ≤ callee)
    (formals : List (Formal × Option Expr)) (ho : h.Ordered) (hcallee : callee < h.frames.size) :
    (Call.bindFormals caller callee h formals).Ordered := by
  induction formals generalizing h with
  | nil => exact ho
  | cons x rest ih =>
    unfold Call.bindFormals
    split
    · rename_i r hr
      have hframe : ∀ g, r.frame = some g → g ≤ callee := by
        intro g hg
        rcases Call.frame_promiseFor hr hg with rfl | rfl
        · exact hcaller
        · exact Nat.le_refl _
      have hpushed : (h.pushPromise r).2.Ordered :=
        ho.pushPromise fun g hg => Nat.lt_of_le_of_lt (hframe g hg) hcallee
      refine ih (hpushed.define callee x.1.name fun p hp => ?_) (by simpa using hcallee)
      cases hp
      exact ⟨r, by simp [getElem?_pushPromise], hframe⟩
    · exact ih (ho.define callee x.1.name fun p hp => nomatch hp) (by simpa using hcallee)

theorem call {fn : Function} {c : Closure} {args : List (Arg Expr)} {caller callee : FrameId}
    (ho : h.Ordered) (hcaller : caller < h.frames.size)
    (hb : Call.bindArguments fn c args caller h = .ok (callee, h')) : h'.Ordered := by
  obtain ⟨supplied, -, -, rfl⟩ := Call.bindArguments_eq_ok.1 hb
  refine bindFormals (Nat.le_of_lt hcaller) _ (ho.pushFrame _ _) ?_
  exact (size_frames_pushFrame h _).symm ▸ Nat.lt_succ_self _

/-- A step of a walk leads to an older frame, or it marks a promise. -/
theorem forwarded {next : String} {mark : Option PromiseId} (ho : h.Ordered)
    (hv : h.verdict roots name frame level = .forwarded next f mark) :
    (h.marked mark).unmarked ≤ h.unmarked ∧
      (f < frame ∨ f = frame ∧ (h.marked mark).unmarked < h.unmarked) := by
  obtain ⟨p, r, hb, hr, -, -, -, hf, -⟩ := verdict_forwarded hv
  obtain ⟨r', hr', hle⟩ := ho.bound hb
  obtain rfl : r = r' := Option.some.inj (hr.symm.trans hr')
  have hframe : f ≤ frame := hle f hf
  rcases (forwarded_cases hv).2 with rfl | hlt
  · have hne : f ≠ frame := by
      rintro rfl
      exact origin?_ne_of_forwarded hv rfl
    exact ⟨Nat.le_refl _, .inl (Nat.lt_of_le_of_ne hframe hne)⟩
  · exact ⟨Nat.le_of_lt hlt, (Nat.lt_or_eq_of_le hframe).imp id fun heq => ⟨heq, hlt⟩⟩

theorem walk_ends (ho : h.Ordered) (roots : List Handle) (name : String) (frame level : Nat)
    (hn : frame * (h.promises.size + 1) + h.unmarked < n) :
    ∃ b, walk roots n h name frame level = some (b, h) := by
  induction n generalizing h name frame level with
  | zero => cases hn
  | succ n ih =>
    rw [walk_succ]
    cases hv : h.verdict roots name frame level with
    | settled b => exact ⟨b, rfl⟩
    | forwarded next f mark =>
      obtain ⟨hle, hstep⟩ := ho.forwarded hv
      have hless : f * ((h.marked mark).promises.size + 1) + (h.marked mark).unmarked <
          frame * (h.promises.size + 1) + h.unmarked := by
        rw [size_promises_marked]
        rcases hstep with hlt | ⟨rfl, hlt⟩
        · calc f * (h.promises.size + 1) + (h.marked mark).unmarked
              < f * (h.promises.size + 1) + (h.promises.size + 1) :=
                Nat.add_lt_add_left (Nat.lt_succ_of_le (Nat.le_trans hle (unmarked_le h))) _
            _ = (f + 1) * (h.promises.size + 1) := (Nat.succ_mul _ _).symm
            _ ≤ frame * (h.promises.size + 1) := Nat.mul_le_mul_right _ hlt
            _ ≤ frame * (h.promises.size + 1) + h.unmarked := Nat.le_add_right _ _
        · exact Nat.add_lt_add_left hlt _
      obtain ⟨b, hb⟩ := ih (ho.marked mark) next f (level + 1)
        (Nat.lt_of_lt_of_le hless (Nat.le_of_lt_succ hn))
      exact ⟨b, by simp [hb]⟩

end Ordered

/-- The heaps that runs come to, and more: names get values, calls from frames there are bind
their arguments, and promises may get any states and values. -/
inductive Arises : Heap → Prop where
  | start (functions : Program) : Arises (Heap.newTop { functions := functions }).2
  | function {h : Heap} (f : Function) :
    Arises h → Arises { h with functions := h.functions.push f }
  | frame {h : Heap} (origin : Origin) (parent : Option FrameId) :
    Arises h → Arises (h.pushFrame ⟨origin, parent, []⟩).2
  | assign {h : Heap} (f : FrameId) (name : String) (x : Value) :
    Arises h → Arises (h.define f name (.value x))
  | call {h h' : Heap} {f : Function} {c : Closure} {args : List (Arg Expr)}
    {caller callee : FrameId} : Arises h → caller < h.frames.size →
    Call.bindArguments f c args caller h = .ok (callee, h') → Arises h'
  | setState {h : Heap} (p : PromiseId) (s : PromiseState) : Arises h → Arises (h.setState p s)
  | fulfil {h : Heap} (p : PromiseId) (x : Value) : Arises h → Arises (h.fulfil p x)

theorem Arises.ordered (hh : h.Arises) : h.Ordered := by
  induction hh with
  | start functions => exact (Ordered.empty functions).pushFrame _ _
  | function f _ ih => exact ih.of_promises rfl fun _ => rfl
  | frame origin parent _ ih => exact ih.pushFrame origin parent
  | assign f name x _ ih => exact ih.define f name fun p hp => nomatch hp
  | call _ hcaller hb ih => exact ih.call hcaller hb
  | setState p s _ ih => exact ih.setState p s
  | fulfil p x _ ih => exact ih.fulfil p x

def ArisesWith (frames : Nat) (h : Heap) : Prop := h.Arises ∧ frames ≤ h.frames.size

theorem keptWhere_arises : KeptWhere ArisesWith fun frames _ env => env < frames where
  part henv _ := henv
  assign {_ _ _ env name} x hh _ _ := ⟨hh.1.assign env name x, by simpa using hh.2⟩
  call {frames h h' f c function args env callee} hh henv hf hb := by
    have hsize := Call.size_frames_bindArguments hb
    refine ⟨h'.frames.size, ⟨hh.1.call (Nat.lt_of_lt_of_le henv hh.2) hb, Nat.le_refl _⟩, ?_, ?_⟩
    · rw [Call.callee_eq hb, hsize]
      exact Nat.lt_succ_self _
    · intro h'' hh''
      have hle := hh.2
      have hle'' := hh''.2
      exact ⟨hh''.1, by omega⟩

end Heap

namespace Eval

open Run

variable {ω μ : Type} [Foreign ω] [Method μ] {ev ev' : Evaluator ω μ}

theorem force_alike_arises
    (hev : ∀ frames held e env, env < frames →
      Alike (Heap.ArisesWith frames) (ev held e env) (ev' held e env))
    (frames : Nat) (held : List Handle) (p : PromiseId) :
    Alike (Heap.ArisesWith frames) (force ev held p) (force ev' held p) := by
  refine force_alike held p fun {w r f} hh hr _ _ hf => ?_
  have hframe : f < (w.entered p).heap.frames.size := hh.1.ordered.frame hr hf
  obtain ⟨hsame, hafter⟩ := hev _ (.promise p :: .frame f :: held) r.expr f hframe
    (w.entered p) ⟨hh.1.setState p _, Nat.le_refl _⟩
  have hframes := Nat.le_trans hh.2 hafter.2
  exact ⟨hsame, fun x => ⟨hafter.1.fulfil p x, hframes⟩, hafter.1.setState p _, hframes⟩

end Eval

section

variable {ω μ : Type} [Foreign ω] [Method μ] [Memory]

theorem eval_arises (n frames : Nat) (held : List Handle) (e : Expr) (env : FrameId)
    (henv : env < frames) :
    Run.Keeps (Heap.ArisesWith frames) (eval n held e env : Run ω μ Value) := by
  induction n generalizing frames held e env with
  | zero => exact Run.Keeps.throw _
  | succ n ih =>
    exact Eval.step_alike_where Heap.keptWhere_arises ih (Eval.force_alike_arises ih) frames held e
      env henv

/-- All evaluations inside an evaluation start from heaps of runs, in frames there are: what an
evaluator does elsewhere makes no difference. -/
theorem Heap.Arises.step_eq {n : Nat} {ev : Evaluator ω μ}
    (hev : ∀ held e env (w : World ω μ), w.heap.Arises → env < w.heap.frames.size →
      ev held e env w = eval n held e env w)
    (held : List Handle) (e : Expr) {env : FrameId} {w : World ω μ} (hw : w.heap.Arises)
    (henv : env < w.heap.frames.size) :
    Eval.step ev held e env w = eval (n + 1) held e env w := by
  have halike : ∀ frames held e env, env < frames →
      Run.Alike (Heap.ArisesWith frames) (eval n held e env) (ev held e env) := by
    intro frames held e env henv w hw
    have hkept := (eval_arises n frames held e env henv w hw).2
    exact ⟨(hev held e env w hw.1 (Nat.lt_of_lt_of_le henv hw.2)).symm, hkept⟩
  exact (Eval.step_alike_where Heap.keptWhere_arises halike (Eval.force_alike_arises halike) _
    held e env henv w ⟨hw, Nat.le_refl _⟩).1.symm

theorem run_arises (n : Nat) (held : List Handle) (es : List Expr) :
    Run.Keeps (Heap.ArisesWith 1) (run n held es : Run ω μ Value) :=
  Eval.block_alike (J := fun _ env => env < 1) (eval_arises n 1) _ .null fun _ _ => Nat.zero_lt_one

end

/-- The missingness walk ends. In every heap that a run comes to, a walk from any name at any level
takes at most as many steps as there are pairs of a frame that is not younger and a number of
promises with a mark. So there is an answer, with or without a checker, and the heap stays as it
was. -/
theorem missing_walk_ends {h : Heap} (hh : h.Arises) (roots : List Handle) (name : String)
    (frame level : Nat) :
    ∃ b, Heap.walk roots ((frame + 1) * (h.promises.size + 1)) h name frame level =
        some (b, h) ∧
      h.isMissing? roots name frame level = some (b, h) ∧
      ∀ c : Checker, c.Leveled → c.level = level →
        ∃ c', c.isMissing? h roots name frame = some ((b, c'), h) := by
  have hbound : frame * (h.promises.size + 1) + h.unmarked <
      (frame + 1) * (h.promises.size + 1) := by
    rw [Nat.succ_mul]
    exact Nat.add_lt_add_left (Nat.lt_succ_of_le h.unmarked_le) _
  obtain ⟨b, hb⟩ := hh.ordered.walk_ends roots name frame level hbound
  have hanswer : h.isMissing? roots name frame level = some (b, h) := Heap.walk_within_bound hb
  refine ⟨b, hb, hanswer, fun c hc hlevel => ?_⟩
  rw [Checker.isMissing?, Checker.walk_eq _ _ hc, hlevel]
  exact ⟨_, congrArg _ hanswer⟩

def roundAbout : Program := #[
  ⟨some "g", [⟨"x", some (.lookup "y")⟩, ⟨"y", some (.lookup "x")⟩], .constant .null⟩,
  ⟨some "h", [⟨"z", none⟩], .constant .null⟩]

def handedRound : Heap where
  frames := #[⟨.top 0, none, []⟩,
    ⟨.call 0, some 0, [("x", .promise 0), ("y", .promise 1)]⟩,
    ⟨.call 1, some 0, [("z", .promise 2)]⟩]
  promises := #[.default (.lookup "y") 1, .default (.lookup "x") 1, .argument (.lookup "x") 1]
  functions := roundAbout

/-- The walk from "z" comes to "x", to "y" and back to "x", where it ends at its own mark. -/
theorem missing_walk_ends_roundAbout :
    handedRound.Arises ∧
      handedRound.isMissing? [.frame 2] "z" 2 0 = some (true, handedRound) := by
  have hg : Call.bindArguments roundAbout[0] ⟨0, 0, some "g"⟩ [] 0
      (Heap.newTop { functions := roundAbout }).2 =
      .ok (1, ⟨handedRound.frames.pop, handedRound.promises.pop, roundAbout⟩) := rfl
  have hh : Call.bindArguments roundAbout[1] ⟨1, 0, some "h"⟩ [.positional (.lookup "x")] 1
      ⟨handedRound.frames.pop, handedRound.promises.pop, roundAbout⟩ = .ok (2, handedRound) := rfl
  have harises : handedRound.Arises :=
    ((Heap.Arises.start roundAbout).call (by decide) hg).call (by decide) hh
  obtain ⟨b, hwalk, hanswer, -⟩ := missing_walk_ends harises [.frame 2] "z" 2 0
  have htrue : Heap.walk [.frame 2] 12 handedRound "z" 2 0 = some (true, handedRound) := rfl
  cases hwalk.symm.trans htrue
  exact ⟨harises, hanswer⟩

end LazyVectors
