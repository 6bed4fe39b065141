import LazyVectors.Proofs.CallSetup
import LazyVectors.Proofs.PromiseStates
/-!
Value semantics of calls. An assignment binds in the frame in which it is evaluated. The body of
a function is evaluated in a frame of its own, and everything that is evaluated elsewhere,
arguments and defaults, is put off as a promise or is evaluated without assigning. So where
those expressions are free of assignments a call changes no frame that was there before it,
whatever it forces and whether or not it succeeds.
-/

set_option autoImplicit false

namespace LazyVectors

namespace Expr

/-- That an expression is another, or stands somewhere in it. -/
inductive Within : Expr → Expr → Prop where
  | self (e : Expr) : Within e e
  | part {x y e : Expr} : y ∈ e.parts → Within x y → Within x e

def AssignmentFree (e : Expr) : Prop := ∀ x, Within x e → x.assigned? = none

def CallsAssignmentFree (e : Expr) : Prop :=
  ∀ callee args, Within (.call callee args) e →
    ∀ x ∈ (Expr.call callee args).parts, x.AssignmentFree

variable {e x : Expr}

theorem Within.trans {y : Expr} (hy : Within y x) (hx : Within x e) : Within y e := by
  induction hx with
  | self => exact hy
  | part hpart _ ih => exact .part hpart ih

theorem AssignmentFree.part (he : e.AssignmentFree) (hx : x ∈ e.parts) : x.AssignmentFree :=
  fun y hy => he y (.part hx hy)

theorem CallsAssignmentFree.part (he : e.CallsAssignmentFree) (hx : x ∈ e.parts) :
    x.CallsAssignmentFree :=
  fun callee args hc => he callee args (.part hx hc)

theorem assignmentFree_iff :
    e.AssignmentFree ↔ e.assigned? = none ∧ ∀ x ∈ e.parts, x.AssignmentFree := by
  refine ⟨fun he => ⟨he e (.self e), fun x hx => he.part hx⟩, fun ⟨he, hparts⟩ x hx => ?_⟩
  cases hx with
  | self => exact he
  | part hy hx => exact hparts _ hy x hx

theorem AssignmentFree.of_leaf (hname : e.assigned? = none) (hparts : e.parts = []) :
    e.AssignmentFree :=
  assignmentFree_iff.2 ⟨hname, by simp [hparts]⟩

theorem AssignmentFree.callsAssignmentFree (he : e.AssignmentFree) : e.CallsAssignmentFree :=
  fun _ _ hc _ hx y hy => he y (hy.trans (.part hx (.self _)) |>.trans hc)

theorem callsAssignmentFree_iff :
    e.CallsAssignmentFree ↔
      (∀ callee args, e = .call callee args → ∀ x ∈ e.parts, x.AssignmentFree) ∧
        ∀ x ∈ e.parts, x.CallsAssignmentFree := by
  constructor
  · refine fun he => ⟨fun callee args heq => ?_, fun x hx => he.part hx⟩
    subst heq
    exact he callee args (.self _)
  · rintro ⟨he, hparts⟩ callee args hc
    cases hc with
    | self => exact he callee args rfl
    | part hy hc => exact hparts _ hy callee args hc

end Expr

/-- A function whose calls and defaults leave all assigning to its own body. -/
structure Function.AssignsLocally (f : Function) : Prop where
  body : f.body.CallsAssignmentFree
  fallback : ∀ x ∈ f.formals, ∀ e, x.fallback = some e → e.AssignmentFree

namespace Heap

def PromisesAssignmentFree (h : Heap) : Prop :=
  ∀ (p : PromiseId) (r : Promise), h.promises[p]? = some r → r.value = none →
    r.state ≠ .underEvaluation → r.expr.AssignmentFree

def Busy (h : Heap) (p : PromiseId) : Prop :=
  ∃ r, h.promises[p]? = some r ∧ r.value = none ∧ r.state = .underEvaluation

/-- What a heap turns into when only frames that are added get bindings. The promises that were
being evaluated stay so, and all others may be evaluated without assigning. -/
structure Apart (h₀ h : Heap) : Prop where
  size : h₀.frames.size ≤ h.frames.size
  functions : h.functions = h₀.functions
  frames : ∀ {f : FrameId}, f < h₀.frames.size → h.frames[f]? = h₀.frames[f]?
  busy : ∀ {p : PromiseId}, h₀.Busy p → h.promises[p]? = h₀.promises[p]?
  assignmentFree : ∀ {p : PromiseId} {r : Promise}, ¬h₀.Busy p → h.promises[p]? = some r →
    r.value = none → r.expr.AssignmentFree

namespace Apart

variable {h₀ h h' : Heap} {p : PromiseId} {r : Promise} {f : FrameId}

theorem refl (hh : h.PromisesAssignmentFree) : h.Apart h where
  size := Nat.le_refl _
  functions := rfl
  frames _ := rfl
  busy _ := rfl
  assignmentFree hp hr hv := hh _ _ hr hv fun hu => hp ⟨_, hr, hv, hu⟩

theorem assign (ha : h₀.Apart h) (hf : h₀.frames.size ≤ f) (name : String) (x : Value) :
    h₀.Apart (h.define f name (.value x)) where
  size := by
    rw [size_frames_define]
    exact ha.size
  functions := ha.functions
  frames {g} hg := by
    have hne : g ≠ f := Nat.ne_of_lt (Nat.lt_of_lt_of_le hg hf)
    rw [frames_define_of_ne hne, ha.frames hg]
  busy hp := ha.busy hp
  assignmentFree hp hr hv := ha.assignmentFree hp hr hv

theorem call {fn : Function} {c : Closure} {args : List (Arg Expr)} {caller callee : FrameId}
    (ha : h₀.Apart h) (hfn : fn.AssignsLocally)
    (hargs : ∀ a ∈ args, ∀ e, a.expr? = some e → e.AssignmentFree)
    (hb : Call.bindArguments fn c args caller h = .ok (callee, h')) : h₀.Apart h' where
  size := by
    rw [Call.size_frames_bindArguments hb]
    exact Nat.le_succ_of_le ha.size
  functions := (Call.functions_bindArguments hb).trans ha.functions
  frames hg := by
    rw [Call.frames_bindArguments hb (Nat.lt_of_lt_of_le hg ha.size), ha.frames hg]
  busy hp := by
    obtain ⟨r, hr, hv, hu⟩ := hp
    have hold : h.promises[_]? = some r := (ha.busy ⟨r, hr, hv, hu⟩).trans hr
    rw [(Ages.bindArguments hb).underEvaluation hold hu, hr]
  assignmentFree {p r} hp hr hv := by
    rcases Call.promises_bindArguments hb hr with hr | ⟨supplied, fallback, hr, hgiven, hdefault⟩
    · exact ha.assignmentFree hp hr hv
    · rcases Call.expr_promiseFor hr with he | he
      · obtain ⟨a, hmem, hexpr⟩ := hgiven r.expr he
        exact hargs a hmem r.expr hexpr
      · obtain ⟨x, hmem, hexpr⟩ := hdefault r.expr he
        exact hfn.fallback x hmem r.expr hexpr

theorem not_busy (ha : h₀.Apart h) (hr : h.promises[p]? = some r)
    (hu : r.state ≠ .underEvaluation) : ¬h₀.Busy p := by
  rintro ⟨r₀, hr₀, hv₀, hu₀⟩
  have hsame := ha.busy ⟨r₀, hr₀, hv₀, hu₀⟩
  rw [hr, hr₀] at hsame
  cases hsame
  exact hu hu₀

theorem of_promise (ha : h₀.Apart h) (hp : ¬h₀.Busy p) (hframes : h'.frames = h.frames)
    (hfunctions : h'.functions = h.functions)
    (hother : ∀ q, q ≠ p → h'.promises[q]? = h.promises[q]?)
    (hself : ∀ r', h'.promises[p]? = some r' → r'.value = none →
      ∃ r, h.promises[p]? = some r ∧ r.value = none ∧ r'.expr = r.expr) : h₀.Apart h' where
  size := by
    rw [hframes]
    exact ha.size
  functions := hfunctions.trans ha.functions
  frames hf := by
    rw [hframes]
    exact ha.frames hf
  busy {q} hq := by
    have hne : q ≠ p := by
      rintro rfl
      exact hp hq
    rw [hother q hne]
    exact ha.busy hq
  assignmentFree {q r'} hq hr' hv := by
    by_cases hqp : q = p
    · subst q
      obtain ⟨r, hr, hrv, hexpr⟩ := hself r' hr' hv
      rw [hexpr]
      exact ha.assignmentFree hp hr hrv
    · rw [hother q hqp] at hr'
      exact ha.assignmentFree hq hr' hv

theorem setState (ha : h₀.Apart h) (hp : ¬h₀.Busy p) (s : PromiseState) :
    h₀.Apart (h.setState p s) := by
  refine ha.of_promise hp rfl rfl (fun q hq => ?_) fun r' hr' hv => ?_
  · rw [getElem?_setState, if_neg hq.symm]
  · rw [getElem?_setState, if_pos rfl] at hr'
    obtain ⟨r, hr, rfl⟩ := Option.map_eq_some_iff.1 hr'
    exact ⟨r, hr, hv, rfl⟩

theorem fulfil (ha : h₀.Apart h) (hp : ¬h₀.Busy p) (x : Value) : h₀.Apart (h.fulfil p x) := by
  refine ha.of_promise hp rfl rfl (fun q hq => ?_) fun r' hr' hv => ?_
  · rw [getElem?_fulfil, if_neg hq.symm]
  · rw [getElem?_fulfil, if_pos rfl] at hr'
    obtain ⟨r, -, rfl⟩ := Option.map_eq_some_iff.1 hr'
    cases hv

end Apart

end Heap

/-- An expression that assigns at most in frames from a number on: it has no assignments, or it
is evaluated in such a frame and hands no assignments on. -/
def Expr.AssignsFrom (start : FrameId) (e : Expr) (env : FrameId) : Prop :=
  e.AssignmentFree ∨ start ≤ env ∧ e.CallsAssignmentFree

theorem Expr.AssignsFrom.args {start env : FrameId} {callee : Expr} {args : List (Arg Expr)}
    (h : (Expr.call callee args).AssignsFrom start env) :
    ∀ a ∈ args, ∀ e, a.expr? = some e → e.AssignmentFree := by
  intro a ha e he
  have hpart : e ∈ (Expr.call callee args).parts :=
    List.mem_cons_of_mem _ (List.mem_filterMap.2 ⟨a, ha, he⟩)
  rcases h with hfree | ⟨-, hcalls⟩
  · exact hfree.part hpart
  · exact hcalls callee args (.self _) e hpart

section

variable {ω μ : Type} [Foreign ω] [Method μ] {h₀ : Heap}
  (hfunctions : ∀ f ∈ h₀.functions, f.AssignsLocally)
include hfunctions

theorem Heap.keptWhere_apart :
    Heap.KeptWhere (fun _ : Unit => h₀.Apart) fun _ => Expr.AssignsFrom h₀.frames.size where
  part he hx := he.imp (·.part hx) (·.imp id (·.part hx))
  assign x ha he hname := by
    rcases he with hfree | ⟨hstart, -⟩
    · have hnone := hfree _ (.self _)
      simp [hname] at hnone
    · exact ha.assign hstart _ x
  call {_ h h' f c function args env callee} ha he hf hb := by
    have hlocal : f.AssignsLocally := hfunctions f (Array.mem_of_getElem? (ha.functions ▸ hf))
    have hstart : h₀.frames.size ≤ callee := Call.callee_eq hb ▸ ha.size
    exact ⟨(), ha.call hlocal he.args hb, .inr ⟨hstart, hlocal.body⟩, id⟩

theorem eval_apart [Memory] (n : Nat) (held : List Handle) (e : Expr) (env : FrameId)
    (he : e.AssignsFrom h₀.frames.size env) :
    Run.Keeps h₀.Apart (eval n held e env : Run ω μ Value) := by
  induction n generalizing held e env with
  | zero => exact Run.Keeps.throw _
  | succ n ih =>
    have hforce : ∀ held p,
        Run.Keeps h₀.Apart (Eval.force (eval n) held p : Run ω μ Value) := by
      intro held p
      refine Eval.force_alike held p fun {w r f} ha hr hv hu _ => ?_
      have hp : ¬h₀.Busy p := ha.not_busy hr hu
      have hfree : r.expr.AssignmentFree := ha.assignmentFree hp hr hv
      have hafter := (ih (.promise p :: .frame f :: held) r.expr f (.inl hfree) (w.entered p)
        (ha.setState hp _)).2
      exact ⟨rfl, hafter.fulfil hp, hafter.setState hp _⟩
    exact Eval.step_alike_where (Heap.keptWhere_apart hfunctions) (fun _ => ih) (fun _ => hforce)
      () held e env he

end

/-- Value semantics of calls. Where arguments, function positions and defaults are free of
assignments, in the functions there are, in the call and in the promises that may still be
evaluated, a call leaves every frame that was there before with the bindings it had, whether it
ends with a value or not. -/
theorem call_keeps_frames {ω μ : Type} [Foreign ω] [Method μ] [Memory] (n : Nat)
    (held : List Handle) (c : Closure) {args : List (Arg Expr)}
    (hargs : ∀ a ∈ args, ∀ e, a.expr? = some e → e.AssignmentFree) (caller : FrameId)
    {w w' : World ω μ} (hfunctions : ∀ f ∈ w.heap.functions, f.AssignsLocally)
    (hw : w.heap.PromisesAssignmentFree)
    (hcall : (Eval.callClosure (eval n) held c args caller).after w = w') :
    ∀ f < w.heap.frames.size, w'.heap.frames[f]? = w.heap.frames[f]? := by
  -- the call is taken as one of a constant, which makes no difference to its arguments
  have hfree : (Expr.call (.constant .null) args).AssignmentFree := by
    refine Expr.assignmentFree_iff.2 ⟨rfl, List.forall_mem_cons.2 ⟨?_, fun e he => ?_⟩⟩
    · exact .of_leaf rfl rfl
    · obtain ⟨a, ha, hexpr⟩ := List.mem_filterMap.1 he
      exact hargs a ha e hexpr
  have hassigns : (Expr.call (.constant .null) args).AssignsFrom w.heap.frames.size caller :=
    .inl hfree
  have hkept := Eval.callClosure_alike_where (Heap.keptWhere_apart hfunctions)
    (fun _ => eval_apart hfunctions n) () held c hassigns w (.refl hw)
  exact fun f hf => hcall ▸ hkept.2.frames hf

def copying : Function :=
  ⟨some "f", [⟨"x", none⟩], .block [.assign "y" (.lookup "x"), .lookup "y"]⟩

theorem assignsLocally_copying : copying.AssignsLocally where
  body := by
    have hlookup : ∀ name, (Expr.lookup name).CallsAssignmentFree := fun name =>
      Expr.AssignmentFree.callsAssignmentFree (.of_leaf rfl rfl)
    have hassign : (Expr.assign "y" (.lookup "x")).CallsAssignmentFree :=
      Expr.callsAssignmentFree_iff.2 ⟨fun _ _ h => (nomatch h),
        List.forall_mem_singleton.2 (hlookup "x")⟩
    refine Expr.callsAssignmentFree_iff.2 ⟨fun _ _ h => (nomatch h), ?_⟩
    exact List.forall_mem_cons.2 ⟨hassign, List.forall_mem_singleton.2 (hlookup "y")⟩
  fallback x hx e he := by
    obtain rfl := List.mem_singleton.1 hx
    cases he

def calling : World Records PlainMethod :=
  { World.ofSizes [] 5 5 3 with
    heap := {
      frames := #[⟨.top 0, none, [("y", .value (.logical true)), ("z", .promise 0)]⟩]
      promises := #[.argument (.block []) 0]
      functions := #[copying] } }

def called : World Records PlainMethod :=
  { calling with
    heap := {
      frames := #[⟨.top 0, none, [("y", .value (.logical true)), ("z", .promise 0)]⟩,
        ⟨.call 0, some 0, [("x", .promise 1), ("y", .value .null)]⟩]
      promises := #[(Promise.argument (.block []) 0).fulfilled .null,
        (Promise.argument (.lookup "z") 0).fulfilled .null]
      functions := #[copying] } }

section

attribute [local instance] Memory.unbounded

theorem call_keeps_frames_sameName :
    Eval.callClosure (eval 5) [] ⟨0, 0, some "f"⟩ [.positional (.lookup "z")] World.global
        calling = .ok .null called ∧
      called.heap.frames[0]? = calling.heap.frames[0]? := by
  have hfunctions : ∀ f ∈ calling.heap.functions, f.AssignsLocally := by
    simpa [calling] using assignsLocally_copying
  have hargs : ∀ a ∈ [Arg.positional (Expr.lookup "z")], ∀ e, a.expr? = some e →
      e.AssignmentFree := by
    intro a ha e he
    obtain rfl := List.mem_singleton.1 ha
    cases he
    exact .of_leaf rfl rfl
  have hw : calling.heap.PromisesAssignmentFree := by
    intro p r hr _ _
    have hmem := Array.mem_of_getElem? hr
    obtain rfl : r = .argument (.block []) 0 := by simpa [calling] using hmem
    exact .of_leaf rfl rfl
  have hrun : Eval.callClosure (eval 5) [] ⟨0, 0, some "f"⟩ [.positional (.lookup "z")]
      World.global calling = .ok .null called := rfl
  exact ⟨hrun, call_keeps_frames 5 [] _ hargs World.global hfunctions hw (Run.after_ok hrun) 0
    (by decide)⟩

end

end LazyVectors
