import Gradual.Proofs.Types.Store

/-!
Building a type expression, whether it succeeds or fails, only adds nodes and names. The one node that is
written twice is that of a recursive type, which the expression has added itself.
-/
namespace Gradual

open Act TypeStore

def TypeError.OfForm : TypeError → Prop
  | .notClosure | .argumentRange => False
  | _ => True

namespace TypeBuilder

variable {α β : Type} {s : TypeStore}

def Additive (act : TypeBuilder α) (s : TypeStore) : Prop :=
  Ends act s (fun _ s' => s.Grows s') fun e s' => e.OfForm ∧ s.Grows s'

theorem Additive.pure (a : α) : Additive (pure a) s := Grows.refl s

theorem Additive.throw {e : TypeError} (form : e.OfForm) : Additive (throw e : TypeBuilder α) s :=
  ⟨form, Grows.refl s⟩

theorem Additive.bind {act : TypeBuilder β} {next : β → TypeBuilder α} (first : Additive act s)
    (rest : ∀ b s', Additive (next b) s') : Additive (act >>= next) s := by
  refine (ends_bind ..).2 (first.mono (fun b s' grown => ?_) fun _ _ failed => failed)
  exact (rest b s').mono (fun _ _ grown' => grown.trans grown') fun _ _ failed => ⟨failed.1, grown.trans failed.2⟩

theorem add_additive (n : Node) : Additive (add n) s := s.grows_add n

theorem resolve_additive (prop : PropRef) : Additive (resolve prop) s := by
  cases prop with
  | id id => exact .pure id
  | name text => exact s.grows_intern text

theorem closure_additive (sig : Signature) : Additive (closure sig) s := by
  unfold closure
  split
  next e failed =>
    refine .throw ?_
    unfold Signature.check at failed
    split at failed
    · cases failed
      trivial
    · split at failed <;> cases failed
      trivial
  · exact add_additive _

theorem object_additive (props : List Property) : Additive (object props) s := by
  unfold object
  split
  · exact .throw trivial
  · exact add_additive _

theorem constructor_additive (proto recv ret : Child) (args : List Child) :
    Additive (constructor proto recv ret args) s := by
  unfold constructor
  split
  · exact .throw trivial
  · exact closure_additive _

theorem wrap_additive (layer : NestLayer) (t : Child) : Additive (wrap layer t) s := by
  cases layer with
  | array | map => exact add_additive _
  | object prop => exact (resolve_additive prop).bind fun id _ => object_additive _
  | ret | arg => exact closure_additive _

theorem wrapTimes_additive (layer : NestLayer) (n : Nat) (t : Child) : Additive (wrapTimes layer n t) s := by
  induction n generalizing s t with
  | zero => exact .pure t
  | succ n ih => exact (wrap_additive layer t).bind fun _ _ => ih _

/-- The node that is closed was added after `s`. -/
theorem tie_additive {s s' : TypeStore} {self : TypeId} (new : s.graph.size ≤ self) (grown : s.Grows s')
    (body : Child) :
    Ends (tie self body) s' (fun _ s'' => s.Grows s'') fun e s'' => e.OfForm ∧ s.Grows s'' := by
  unfold tie
  split
  · exact ⟨trivial, grown⟩
  · split
    · exact ⟨trivial, grown⟩
    · refine ⟨by simpa using grown.size, fun t old => ?_, grown.issued, grown.names, grown.distinct⟩
      exact (Graph.node_define_of_ne (Nat.ne_of_lt (old.trans_le new)) _).trans (grown.nodes t old)

end TypeBuilder

open TypeBuilder

mutual

theorem TypeExpr.additive (scope : TypeScope) : (e : TypeExpr) → (s : TypeStore) → Additive (e.build scope) s
  | .missing, _ => .pure none
  | .named name, _ => by
    unfold TypeExpr.build
    split
    · exact .pure _
    · split
      · exact .pure _
      · exact .throw trivial
  | .fresh _, _ => (add_additive _).bind fun _ _ => .pure _
  | .function ret args, s =>
    (ret.additive scope s).bind fun _ s₁ => (buildTypes_additive scope args s₁).bind fun _ _ =>
      (closure_additive _).bind fun _ _ => .pure _
  | .method recv ret args, s =>
    (recv.additive scope s).bind fun _ s₁ => (ret.additive scope s₁).bind fun _ s₂ =>
      (buildTypes_additive scope args s₂).bind fun _ _ => (closure_additive _).bind fun _ _ => .pure _
  | .constructor proto recv ret args, s =>
    (proto.additive scope s).bind fun _ s₁ => (recv.additive scope s₁).bind fun _ s₂ =>
      (ret.additive scope s₂).bind fun _ s₃ => (buildTypes_additive scope args s₃).bind fun _ _ =>
        (constructor_additive _ _ _ _).bind fun _ _ => .pure _
  | .object props, s =>
    (buildProps_additive scope props s).bind fun _ _ => (object_additive _).bind fun _ _ => .pure _
  | .array elem, s => (elem.additive scope s).bind fun _ _ => (add_additive _).bind fun _ _ => .pure _
  | .map elem, s => (elem.additive scope s).bind fun _ _ => (add_additive _).bind fun _ _ => .pure _
  | .fix self body, s => by
    unfold TypeExpr.build
    have grown : s.Grows { s with graph := (s.graph.add (.odd 0)).1 } := s.grows_add (.odd 0)
    refine (ends_bind ..).2 ?_
    change Ends _ { s with graph := (s.graph.add (.odd 0)).1 } _ _
    refine (ends_bind ..).2 ((body.additive ((self, s.graph.size) :: scope) _).mono (fun built s₁ grown₁ => ?_)
      fun _ _ failed => ⟨failed.1, grown.trans failed.2⟩)
    refine (ends_bind ..).2 ((tie_additive le_rfl (grown.trans grown₁) built).mono (fun _ _ h => h) fun _ _ h => h)
  | .nest layer base count, s =>
    (base.additive scope s).bind fun t _ => wrapTimes_additive layer count t
  | .rawNode kind props elem, s =>
    (buildProps_additive scope props s).bind fun _ s₁ => (elem.additive scope s₁).bind fun _ _ =>
      (add_additive _).bind fun _ _ => .pure _
  | .rawClosure code args ret proto, s =>
    (buildTypes_additive scope args s).bind fun _ s₁ => (ret.additive scope s₁).bind fun _ s₂ =>
      (proto.additive scope s₂).bind fun _ _ => (add_additive _).bind fun _ _ => .pure _

theorem buildTypes_additive (scope : TypeScope) : (es : List TypeExpr) → (s : TypeStore) →
    Additive (buildTypes scope es) s
  | [], _ => .pure []
  | e :: rest, s =>
    (e.additive scope s).bind fun _ s₁ => (buildTypes_additive scope rest s₁).bind fun _ _ => .pure _

theorem buildProps_additive (scope : TypeScope) : (ps : List PropExpr) → (s : TypeStore) →
    Additive (buildProps scope ps) s
  | [], _ => .pure []
  | .mk prop type _ :: rest, _ =>
    (resolve_additive prop).bind fun _ s₁ => (type.additive scope s₁).bind fun _ s₂ =>
      (buildProps_additive scope rest s₂).bind fun _ _ => .pure _

end

end Gradual
