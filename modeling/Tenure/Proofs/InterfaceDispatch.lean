import Tenure.Proofs.Dispatch
import Tenure.Proofs.ReadPrograms
import Tenure.Proofs.StaticForm

/-!
# Dispatch reaches the registered implementation

A struct that implements an interface has a method table of its own for it.  This
file puts together what the finished module holds, what a new machine makes of it
and what the code does: a reference through an interface carries the table of the
struct and the interface it was made for, a call through it invokes the function
that the struct lists for the method, and its last release invokes the drop
function of the struct.
-/

namespace Tenure.Lowering

open Ir (Const Operand Func)
open Interp (Call World Value Memory Pointer Proceeds)

variable {T : Setting} {F : Func} {C : Call} {m0 : Memory} {e : ResolvedEdge} {g drop : Nat}

/-! ## What dispatch does -/

/-- A call of a function of the finished module is under way. -/
structure Hosts (T : Setting) (F : Func) (C : Call) : Prop where
  body : C.body = F
  code : C.code = T.final.module

/-- No global has been overwritten since the memory `m₀`. -/
def Intact (T : Setting) (m0 m : Memory) : Prop :=
  ∀ i < T.final.module.globals.size, m.objects[i]? = m0.objects[i]?

/-- Upcasts from the struct of an edge to its interface: where the source has the
address of an object, the result is that address with the address of the table. -/
def Upcasts (T : Setting) (e : ResolvedEdge) (g : Nat) : Prop :=
  ∀ ⦃F : Func⦄ ⦃source : Expr⦄ ⦃type : Option Reference⦄ ⦃S I : Symbol⦄ ⦃s : State⦄ ⦃f : Func⦄
    ⦃r : Result⦄ ⦃s' : State⦄ ⦃f' : Func⦄,
    Stands T F [] (lowerExpr (.upcast source type (some S) (some I))) s f r s' f' →
    T.env.program.structId S = e.structId → T.env.program.interfaceId I = e.interfaceId →
    ∃ x s1 f1, valueOf source T.env s = .ok x s1 ∧ Placed s1 f1 ∧
      ∀ ⦃C : Call⦄ ⦃w : World⦄ ⦃o : Pointer⦄, Hosts T F C → C.Means w.regs x.value (.ptr o) →
        ∃ y t w', r = some ⟨y, t⟩ ∧ Passes C s1 f1 w s' f' w' ∧ w'.memory = w.memory ∧
          C.Means w'.regs y (interfacePair o g)

/-- Calls of a method through the interface of an edge: where the receiver is a
reference with the table of the edge, the function of the edge is invoked, with the
object in the receiver's place. -/
def CallsMethods (T : Setting) (m0 : Memory) (e : ResolvedEdge) (g : Nat) : Prop :=
  ∀ ⦃F : Func⦄ ⦃args : List Expr⦄ ⦃receiver : Int⦄ ⦃I : Symbol⦄ ⦃k : Nat⦄
    ⦃signature : Option Callee⦄ ⦃s : State⦄ ⦃f : Func⦄ ⦃r : Result⦄ ⦃s' : State⦄ ⦃f' : Func⦄,
    Stands T F [] (lowerExpr (.interfaceCall args receiver (some I) k signature)) s f r s' f' →
    T.env.program.interfaceId I = e.interfaceId →
    ∀ ⦃i : Nat⦄, e.methods[k]? = some i →
    -- an index into a table is a constant of 32 bits
    k + 1 < 2 ^ 31 →
    ∃ xs s1 f1 pos, valuesOf args T.env s = .ok xs s1 ∧ Placed s1 f1 ∧ 0 ≤ receiver ∧
      T.final.funcs[i]? = some (some pos) ∧
      ∀ ⦃C : Call⦄ ⦃w : World⦄ ⦃o : Pointer⦄ ⦃vs : List Value⦄, Hosts T F C →
        Intact T m0 w.memory → List.Forall₂ (C.Means w.regs) xs vs →
        vs[receiver.toNat]? = some (interfacePair o g) →
        ∃ b j w', Proceeds (standing C s1 f1 w)
            (invoking C b j w' pos (vs.set receiver.toNat (.ptr o))) ∧
          w'.memory = w.memory ∧ w'.output = w.output

/-- Releases of a shared reference with the table of an edge: the count of the object
is taken down, and where it has come to zero, the drop function is invoked on the
object. -/
def Drops (T : Setting) (m0 : Memory) (e : ResolvedEdge) (g drop : Nat) : Prop :=
  ∀ ⦃F : Func⦄ ⦃x : Operand⦄ ⦃I : Symbol⦄ ⦃s : State⦄ ⦃f : Func⦄ ⦃u : Unit⦄
    ⦃s' : State⦄ ⦃f' : Func⦄,
    Stands T F [x] (discard ⟨x, some ⟨.share, .yonder, .interface I⟩⟩) s f u s' f' →
    T.env.program.interfaceId I = e.interfaceId →
    ∃ zero s1 f1 b,
      (∀ ⦃C : Call⦄ ⦃w : World⦄ ⦃o : Pointer⦄ ⦃n : Int64⦄ ⦃m' : Memory⦄, Hosts T F C →
        C.Means w.regs x (interfacePair o g) →
        Interp.load .i64 o w.memory = .ok (.int n) w.memory →
        Interp.store .i64 (.int (n - 1)) o w.memory = .ok () m' →
        ∃ w', Passes C s f w s1 f1 w' ∧ w'.memory = m' ∧
          C.Means w'.regs zero (Interp.truth (n - 1 == 0))) ∧
      (∀ ⦃C : Call⦄, Hosts T F C →
        C.body.term? s1.block = some (.condBr zero (.block b) (.block s'.block))) ∧
      ∀ ⦃C : Call⦄ ⦃w : World⦄ ⦃o : Pointer⦄, Hosts T F C → Intact T m0 w.memory →
        C.Means w.regs x (interfacePair o g) →
        ∃ b' j w', Proceeds (C.here b 0 w) (invoking C b' j w' drop [.ptr o]) ∧
          w'.memory = w.memory ∧ w'.output = w.output

/-! ## Tables of new machines -/

variable {M : Interp.Machine} {output : Interp.Output} {n j : Nat}

/-- The table of an edge in a memory where no global has been overwritten. -/
theorem TableIn.intact {m : Memory} {d : InterfaceDef} {table : Interp.Object} {vs : List Value}
    (h : TableIn T m0 e g j drop d table vs) (hg : g < T.final.module.globals.size)
    (hm : Intact T m0 m) : TableIn T m e g j drop d table vs :=
  { h with object := (hm g hg).trans h.object }

theorem tableIn_new {i : Nat} {entries : List Const}
    (h : TableAt T.env.program T.final e g i j drop entries) (htypes : T.Typed)
    (hnew : Interp.Machine.new T.final.module output = .ok M) :
    g < T.final.module.globals.size ∧
      ∃ d table vs, TableIn T M.memory e g j drop d table vs := by
  obtain ⟨signature, hg⟩ := h.global
  obtain ⟨d, hd, hcount⟩ := h.count
  obtain ⟨table, vs, htable, hrow, hlen, hmethods⟩ := h.row htypes hnew
  refine ⟨(Array.getElem?_eq_some_iff.mp hg).1, d, table, vs, hd, htable, hrow, hlen.trans hcount,
    fun k f hf hlt => hmethods k f hf (hlen ▸ hlt)⟩

section Table

variable {j : Nat} {d : InterfaceDef} {table : Interp.Object} {vs : List Value}

theorem upcasts_of_table {n : Nat} (hlinked : T.env.program.Linked) (htypes : T.Typed)
    (hn : T.env.program.edges[n]? = some e) (hg : T.final.itables[n]? = some g) :
    Upcasts T e g := by
  intro F source type S I s f r s' f' hS hstruct hinterface
  obtain ⟨x, ownership, s1, f1, hrun, hS⟩ := hS.upcast
  refine ⟨x, s1, f1, hrun, hS.placed, fun C w o hC hx => ?_⟩
  have hknows : Knows T [(x.value, .ptr o)] x.value (.ptr o) := .inl (by simp)
  obtain ⟨L', w', hpass, hL', y, rfl, hy, hmem⟩ :=
    hS.flows (flows_upcasting hlinked htypes hn hg hstruct hinterface hknows) hC.body hC.code
      (by simpa using hx)
  exact ⟨y, _, w', rfl, hpass, hmem, hy.means hC.code hL'⟩

theorem callsMethods_of_table (htypes : T.Typed) (h : TableIn T m0 e g j drop d table vs)
    (hg : g < T.final.module.globals.size) (hj : e.interfaceId = j)
    (hcount : e.methods.length = d.methods.length) : CallsMethods T m0 e g := by
  intro F args receiver I k signature s f r s' f' hS hinterface i hi hlow
  obtain ⟨j', xs, s1, f1, hj', hreceiver, hrun, hS⟩ := hS.interfaceCall
  obtain rfl : j = j' := by omega
  have hlt : k < vs.length := by
    rw [h.count, ← hcount]
    exact (List.getElem?_eq_some_iff.mp hi).1
  obtain ⟨pos, hpos, hv⟩ := h.methods k i hi hlt
  refine ⟨xs, s1, f1, pos, hrun, hS.placed, hreceiver, hpos,
    fun C w o us hC hintact hxs hpair => ?_⟩
  obtain ⟨n, rfl⟩ := Int.eq_ofNat_of_zero_le hreceiver
  obtain ⟨hlen, hmeans⟩ := List.forall₂_iff_zip.mp hxs
  have hknows : List.Forall₂ (Knows T (xs.zip us)) xs us :=
    List.forall₂_iff_zip.mpr ⟨hlen, fun hp => .inl hp⟩
  exact hS.calls (calls_callingMethod htypes (h.intact hg hintact) hv hlow hknows hpair) hC.body
    hC.code fun p hp => ⟨(List.of_mem_zip hp).1, hmeans hp⟩

theorem drops_of_table (htypes : T.Typed) (h : TableIn T m0 e g j drop d table vs)
    (hg : g < T.final.module.globals.size) (hj : e.interfaceId = j) : Drops T m0 e g drop := by
  intro F x I s f u s' f' hS hinterface
  obtain ⟨zero, s1, f1, s2, f2, s3, f3, hcount, hends, hempty, hdrop⟩ := hS.discard
  refine ⟨zero, s1, f1, s2.block, ?_, fun C hC => hends C hC.body, ?_⟩
  · intro C w o n m' hC hx hload hstore
    have hknows : Knows T [(x, interfacePair o g)] x (interfacePair o g) := .inl (by simp)
    obtain ⟨L', w', hpass, hL', hzero, hmem⟩ :=
      hcount.flows (flows_lastReference rfl htypes hknows hload hstore) hC.body hC.code
        (by simpa using hx)
    exact ⟨w', hpass, hmem, hzero.means hC.code hL'⟩
  · intro C w o hC hintact hx
    have hknows : Knows T [(x, interfacePair o g)] x (interfacePair o g) := .inl (by simp)
    have hcalls := calls_dropThroughTable htypes (h.intact hg hintact) (hinterface.trans hj) hknows
    have hstart : C.here s2.block 0 w = standing C s2 f2 w := by
      rw [standing, hempty]
      rfl
    rw [hstart]
    exact hdrop.calls hcalls hC.body hC.code (by simpa using hx)

end Table

/-! ## Whole programs -/

/-- What dispatch does in a finished module, in machines that were new with the
memory `m₀`. -/
structure Dispatches (p : Program) (options : Options) (m0 : Memory) (final : State) : Prop where
  /-- functions, drop functions and tables have got their places -/
  assembled : Assembled ⟨p, options⟩ final
  /-- the edges are those that the structs list, with the functions that are named there -/
  linked : p.Linked
  /-- every expression of a function stands in its code -/
  stands : ∀ T : Setting, T.env = ⟨p, options⟩ → T.final = final → ∀ (k : Nat) (fn : Function),
    p.functions[k]? = some fn → ∃ pos F, final.funcs[k]? = some (some pos) ∧
      final.module.funcs[pos]? = some F ∧ ∀ d, d.Occurs fn.body →
        ∃ s f r s' f', Stands T F [] (lowerExpr d) s f r s' f'
  /-- the code of a discard releases the value of its source -/
  releases : ∀ T : Setting, T.env = ⟨p, options⟩ → T.final = final → ∀ (F : Func) (source : Expr)
    (type : Option Reference) (s : State) (f : Func) (r : Result) (s' : State) (f' : Func),
    Stands T F [] (lowerExpr (.discard source type)) s f r s' f' →
      ∃ x s1 f1 s2 f2, valueOf source T.env s = .ok x s1 ∧
        Stands T F [x.value] (discard ⟨x.value, type⟩) s1 f1 () s2 f2
  edges : ∀ T : Setting, T.env = ⟨p, options⟩ → T.final = final → ∀ (n : Nat) (e : ResolvedEdge),
    p.edges[n]? = some e → ∃ g drop, final.itables[n]? = some g ∧
      final.dropFuncs[e.structId.toNat]? = some drop ∧
      Upcasts T e g ∧ CallsMethods T m0 e g ∧ Drops T m0 e g drop
  /-- no two pairs of a struct and an interface share a table -/
  apart : ∀ (n n' : Nat) (e e' : ResolvedEdge), p.edges[n]? = some e → p.edges[n']? = some e' →
    final.itables[n]? = final.itables[n']? ∨
      e.structId = e'.structId ∧ e.interfaceId = e'.interfaceId → n = n'
  /-- in a program that was read, calls have their receivers where the tables do -/
  receivers : ∀ doc, Program.ofDoc doc = .ok p → ∀ fn ∈ p.functions.toList,
    ∀ args receiver interface method signature,
      (Expr.interfaceCall args receiver interface method signature).Occurs fn.body →
        Addresses p receiver interface method

/-- The table of an edge is found in a new machine. -/
theorem Assembled.tableIn (h : Assembled T.env T.final) (hlinked : T.env.program.Linked)
    (hnumbered : T.env.program.Numbered) (hnew : Interp.Machine.new T.final.module output = .ok M)
    (hn : T.env.program.edges[n]? = some e) :
    ∃ g j drop d table vs, T.final.itables[n]? = some g ∧ g < T.final.module.globals.size ∧
      T.final.dropFuncs[e.structId.toNat]? = some drop ∧ e.interfaceId = (j : Nat) ∧
      e.methods.length = d.methods.length ∧ TableIn T M.memory e g j drop d table vs := by
  obtain ⟨base, htables⟩ := h.tables
  obtain ⟨hg, i, j, drop, entries, htable⟩ := htables n e hn
  obtain ⟨hlt, d, table, vs, hin⟩ := tableIn_new htable h.types hnew
  obtain ⟨⟨d', listed⟩, -, haccepted⟩ := getElem?_forall₂ hlinked.accepted hn
  -- the numbers of the edge are those of its struct and of its interface
  have hi : e.structId = i := haccepted.structId.symm.trans htable.struct
  obtain ⟨d'', hd'', hid, hcount⟩ := haccepted.interfaceDef
  obtain rfl : d = d'' := by
    rw [htable.interface, Program.interface?, Program.byId, if_pos (by omega),
      Int.toNat_natCast] at hd''
    exact Option.some.inj (hin.interface.symm.trans hd'')
  have hj : e.interfaceId = j := hid.symm.trans (hnumbered.interfaces j d hin.interface)
  refine ⟨base + n, j, drop, d, table, vs, hg, hlt, ?_, hj, hcount, hin⟩
  rw [hi, Int.toNat_natCast]
  exact htable.isDrop

theorem Assembled.edge (h : Assembled T.env T.final) (hlinked : T.env.program.Linked)
    (hnumbered : T.env.program.Numbered) (hnew : Interp.Machine.new T.final.module output = .ok M)
    (hn : T.env.program.edges[n]? = some e) :
    ∃ g drop, T.final.itables[n]? = some g ∧ T.final.dropFuncs[e.structId.toNat]? = some drop ∧
      Upcasts T e g ∧ CallsMethods T M.memory e g ∧ Drops T M.memory e g drop := by
  obtain ⟨g, j, drop, d, table, vs, hg, hlt, hdrop, hj, hcount, hin⟩ :=
    h.tableIn hlinked hnumbered hnew hn
  exact ⟨g, drop, hg, hdrop, upcasts_of_table hlinked h.types hn hg,
    callsMethods_of_table h.types hin hlt hj hcount, drops_of_table h.types hin hlt hj⟩

theorem Assembled.stands {k : Nat} {fn : Function} (h : Assembled T.env T.final)
    (hk : T.env.program.functions[k]? = some fn) :
    ∃ pos F, T.final.funcs[k]? = some (some pos) ∧ T.final.module.funcs[pos]? = some F ∧
      ∀ d, d.Occurs fn.body → ∃ s f r s' f', Stands T F [] (lowerExpr d) s f r s' f' := by
  obtain ⟨pos, F, hpos, hF, hbody⟩ := h.functions k fn hk
  refine ⟨pos, F, hpos, hF, fun d hd => ?_⟩
  obtain ⟨s, f, r, s', f', hS⟩ := hbody.stands
  exact exhibits_arriving (exhibits_of_occurs hd) hS

/-- Edges between the same struct and the same interface are the same, and so are those
with the same table. -/
theorem Assembled.apart {env : Env} {final : State} (h : Assembled env final)
    (hlinked : env.program.Linked) {n' : Nat} {e' : ResolvedEdge}
    (hn : env.program.edges[n]? = some e) (hn' : env.program.edges[n']? = some e')
    (hsame : final.itables[n]? = final.itables[n']? ∨
      e.structId = e'.structId ∧ e.interfaceId = e'.interfaceId) : n = n' := by
  rcases hsame with hsame | ⟨hstruct, hinterface⟩
  · obtain ⟨base, htables⟩ := h.tables
    rw [(htables n e hn).1, (htables n' e' hn').1] at hsame
    have := Option.some.inj hsame
    omega
  · have hindex := hlinked.edgeIndex?_eq hn
    rw [hstruct, hinterface, hlinked.edgeIndex?_eq hn'] at hindex
    exact (Option.some.inj hindex).symm

/-- Dynamic dispatch reaches the registered implementation. -/
theorem dispatch_reaches_implementation {q p : Program} {options : Options} {code : Ir.Module}
    {M : Interp.Machine} {output : Interp.Output} (hq : q.resolve = (p, none))
    (hcode : p.toModule options = .ok code)
    (hnew : Interp.Machine.new code output = .ok M) :
    ∃ final : State, final.module = code ∧ Dispatches p options M.memory final := by
  obtain ⟨hnumbered, hlinked⟩ := Program.resolve_ok hq
  obtain ⟨final, hbuild, rfl⟩ := Program.toModule_ok hcode
  have hassembled := buildModule_assembled hnumbered hbuild
  refine ⟨final, rfl, hassembled, hlinked, ?_, fun _ _ _ _ _ _ _ _ _ _ _ hS => hS.discarded, ?_,
    fun n n' e e' => hassembled.apart hlinked,
    fun doc hdoc fn hfn _ _ _ _ _ => addresses_of_doc hdoc hfn⟩
  · rintro ⟨_, _, natives, depth⟩ rfl rfl k fn hk
    exact Assembled.stands (T := ⟨_, _, natives, depth⟩) hassembled hk
  · rintro ⟨_, _, natives, depth⟩ rfl rfl n e hn
    exact Assembled.edge (T := ⟨_, _, natives, depth⟩) hassembled hlinked hnumbered hnew hn

/-! ## A program with two implementations -/

namespace Shapes

def int : Option Reference := some .int

def shape : Option Reference := some ⟨.share, .yonder, .interface (.interned "Shape")⟩

/-- A reference to a struct by its name. -/
def reference (name : String) : Option Reference := some ⟨.share, .yonder, .struct (.interned name)⟩

/-- The signature of a scaling function, for the type of what is scaled. -/
def scale (name : String) (type : Option Reference) : Prototype := ⟨name, [int, type], int, -1⟩

def side : StructMember := ⟨"side", int⟩

/-- A scaling function releases what is scaled and yields a number. -/
def scaling (name struct : String) (result : Expr) : Function where
  proto := scale name (reference struct)
  body := .block [.discard (.argument (reference struct) 1) (reference struct), result]

def struct (name method : String) : StructDef where
  name := name
  immutable := true
  members := [side]
  edges := [⟨some (.interned name), some (.interned "Shape"), [method]⟩]

/-- A square and a circle; a method is called on a circle, as the second argument. -/
def program : Program where
  structs := #[struct "Square" "scaleSquare", struct "Circle" "scaleCircle"]
  interfaces := #[⟨"Shape", [scale "scale" shape], -1⟩]
  functions := #[scaling "scaleSquare" "Square" (.argument int 0),
    scaling "scaleCircle" "Circle" (.constantI64 3),
    ⟨⟨"main", [], int, -1⟩, .interfaceCall [.constantI64 7,
      .upcast (.newStruct [.constantI64 1] (reference "Circle")) (reference "Circle")
        (some (.interned "Circle")) (some (.interned "Shape"))]
      1 (some (.interned "Shape")) 0 (some (.inPlace (scale "scale" shape)))⟩]
  structSymbols := [("Square", -1), ("Circle", -1)]
  interfaceSymbols := [("Shape", -1)]

end Shapes

open Shapes in
theorem dispatch_reaches_implementation_shapes :
    ∃ code M final, program.resolve.1.toModule {} = .ok code ∧ Interp.Machine.new code = .ok M ∧
      program.resolve.1.edges.map (·.methods) = [[0], [1]] ∧ final.module = code ∧
      Dispatches program.resolve.1 {} M.memory final := by
  have hq := Program.resolve_of_none (p := program) (by decide +kernel)
  have hedges : program.resolve.1.edges.map (·.methods) = [[0], [1]] := by decide +kernel
  have heval : (program.resolve.1.toModule {}).toOption.any
      (fun code => (Interp.Machine.new code).toOption.any fun _ => true) = true := by
    decide +kernel
  obtain ⟨code, hcode, heval⟩ := except_of_any heval
  obtain ⟨M, hnew, -⟩ := except_of_any heval
  obtain ⟨final, hfinal, h⟩ := dispatch_reaches_implementation hq hcode hnew
  exact ⟨code, M, final, hcode, hnew, hedges, hfinal, h⟩

end Tenure.Lowering
