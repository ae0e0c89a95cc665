import Tenure.Lowering.Dispatch
import Tenure.Program.Load
import Tenure.Proofs.Building
import Tenure.Proofs.Outcomes
import Tenure.Proofs.Resolution
import Tenure.Proofs.Sites

/-!
# Receivers of virtual calls

A virtual call says at which position the reference is that it goes through.  The
loader takes the position from the method's parameters by the name of the
interface, before any name has a number; lowering looks for it by number, when it
builds the method tables.  Where interfaces are numbered by name, the two agree.
-/

namespace Tenure

namespace Load

variable {s : Scope}

theorem within_ok {α : Type} {p : LoadPlace} {x : Outcome α} {a : α} (h : within p x = .ok a) :
    x = .ok a :=
  except_mapError_ok h

/-- The loader finds a receiver among the methods of the one interface of a name. -/
theorem readMethod_ok {name : String} {method : Int} {m : Prototype} {k : Nat}
    (h : readMethod s name method = .ok (m, k)) :
    name ∈ s.names.interfaces ∧ 0 ≤ method ∧ (s.methods name)[method.toNat]? = some m ∧
      receiverIndex? name m = some k := by
  unfold readMethod at h
  split at h
  · cases h
  · next hname =>
    split at h
    · cases h
    · next hm =>
      split at h
      · cases h
      · next hk =>
        cases h
        split at hm
        · next hmethod => exact ⟨by simpa using hname, hmethod, hm, hk⟩
        · cases hm

end Load

/-! ## Programs that were resolved -/

theorem Program.ofDoc_ok {doc : ProgramDoc} {p : Program} (h : Program.ofDoc doc = .ok p) :
    ∃ q, Load.assemble doc = .ok q ∧ q.resolve = (p, none) := by
  obtain ⟨q, hq, h⟩ := except_bind_ok h
  refine ⟨q, hq, ?_⟩
  split at h
  · next hp =>
    cases h
    exact hp
  · cases h

namespace Lowering

/-! ## Receivers -/

/-- A virtual call goes through an interface of the program, names one of its methods,
and has its receiver where lowering looks for it. -/
def Addresses (p : Program) (receiver : Int) (interface : Option Symbol) (method : Int) : Prop :=
  ∃ I d m, ∃ k : Nat, interface = some I ∧ p.interface? (p.interfaceId I) = some d ∧
    0 ≤ method ∧ d.methods[method.toNat]? = some m ∧ receiver = k ∧
      ∀ options s, receiverIndex d m ⟨p, options⟩ s = .ok k s

variable {p : Program} {d : InterfaceDef} {m : Prototype} {i : Nat}
variable {params : List (Option Reference)}

theorem find_cons {t : Reference} :
    receiverIndex.find d m p i (some t :: params) = match t.referend with
      | .interface I => if p.interfaceId I = d.id then pure i else receiverIndex.find d m p
          (i + 1) params
      | _ => receiverIndex.find d m p (i + 1) params := by
  rw [receiverIndex.find]
  rfl

/-- The receiver is found by number where it is found by name. -/
theorem findReceiver_ok {env : Env} {name : String} {k : Nat} {s : State}
    (hparams : ∀ r ∈ params, ∃ t, r = some t ∧ ∀ I, t.referend = .interface I →
      (p.interfaceId I = d.id ↔ I.name = name))
    (hk : Load.receiverIndex? name { m with params } = some k) :
    receiverIndex.find d m p i params env s = .ok (i + k) s := by
  induction params generalizing i k with
  | nil => cases hk
  | cons r params ih =>
    obtain ⟨⟨t, rfl, hname⟩, hrest⟩ := List.forall_mem_cons.1 hparams
    have hlater {k : Nat} (hk : Load.receiverIndex? name { m with params } = some k) :
        receiverIndex.find d m p (i + 1) params env s = .ok (i + (k + 1)) s := by
      rw [ih hrest hk, show i + 1 + k = i + (k + 1) by omega]
    unfold Load.receiverIndex? at hk
    rw [List.findIdx?_cons] at hk
    rw [find_cons]
    obtain ⟨o, l, referend⟩ := t
    cases referend with
    | interface I =>
      by_cases hI : I.name = name
      · rw [if_pos (by simpa using hI)] at hk
        cases hk
        show (if p.interfaceId I = d.id then pure i else receiverIndex.find d m p (i + 1) params)
          env s = _
        rw [if_pos ((hname I rfl).2 hI)]
        rfl
      · rw [if_neg (by simpa using hI)] at hk
        obtain ⟨k', hk', rfl⟩ := Option.map_eq_some_iff.1 hk
        show (if p.interfaceId I = d.id then pure i else receiverIndex.find d m p (i + 1) params)
          env s = _
        rw [if_neg (mt (hname I rfl).1 hI)]
        exact hlater hk'
    | _ =>
      obtain ⟨k', hk', rfl⟩ := Option.map_eq_some_iff.1 hk
      exact hlater hk'

end Lowering
end Tenure
