/-
RpcLoom/Proofs/Transparency.lean

Code that comes to no remote call runs as if nothing had been woven.

Design.  A call by name invokes the procedure it finds, and then whatever is
called at the places that the run of it leads to (`CallInvokes`).  User code
names no generated procedure, so at all these places the woven assembly runs
what the assembly ran, as long as that is no remote call.  Whether a call comes
to a remote call depends on what it is given; it never does if no code that is
not remote names a remote call (`isRemote_of_callInvokes`).

Main result.  `Loom.call_transparent`.
-/
import RpcLoom.Proofs.Covering
import RpcLoom.Proofs.Reaching

namespace RpcLoom

open Relation (ReflTransGen)

namespace Assembly

variable {a : Assembly} {object : NetObject} {v : Bool} {m : MethodRef} {name : String}
  {args : List Value} {host : Host} {s : RunState}

/-! ### What a call comes to invoke -/

/-- A call of a reference comes to invoke a procedure: the one that it runs, or one that is called
at a place the run leads to. -/
inductive Invokes (a : Assembly) (object : NetObject) (v : Bool) (m : MethodRef)
    (args : List Value) (s : RunState) : Procedure → Prop
  | called {p : Procedure} (hcallee : a.calleeOf object v m = .ok p) : Invokes a object v m args s p
  | later {p q : Procedure} {body : Body} {y : Place} {v' : Bool} {m' : MethodRef}
      {args' : List Value} {s' : RunState} (hcallee : a.calleeOf object v m = .ok p)
      (hbody : p.body = some body)
      (hleads : ReflTransGen (a.Leads object) (.entry p body args s) y)
      (hcalls : y.Calls v' m' args' s') (hfound : a.calleeOf object v' m' = .ok q) :
      Invokes a object v m args s q

/-- A call by name comes to invoke a procedure. -/
def CallInvokes (a : Assembly) (object : NetObject) (name : String) (args : List Value)
    (host : Host) (q : Procedure) : Prop :=
  ∃ m, a.methodNamed object.typeName name = .ok m ∧
    a.Invokes object true m args ⟨⟨[], [], []⟩, host, none, stepBudget⟩ q

/-- A run keeps to names of which something holds, if all code does that it comes to. -/
theorem names_of_leads {P : String → Prop} {x y : Place} (h : ReflTransGen (a.Leads object) x y)
    (hx : x.Names P)
    (hentered : ∀ z, ReflTransGen (a.Leads object) x z → z.Names P → ∀ v m args s p body,
      z.Calls v m args s → a.calleeOf object v m = .ok p → p.body = some body →
        body.code.Names P) :
    y.Names P := by
  induction h with
  | refl => exact hx
  | @tail y z hxy hyz ih => exact hyz.names ih (hentered y hxy ih)

/-! ### Calls that come to no remote call -/

/-- No remote call has the name. -/
def LocalName (a : Assembly) (name : String) : Prop :=
  ∀ t ∈ a.types, ∀ p ∈ t.procedures, p.name = name → p.isRemote = false

instance (a : Assembly) : DecidablePred a.LocalName := fun name =>
  inferInstanceAs (Decidable (∀ t ∈ a.types, ∀ p ∈ t.procedures, p.name = name →
    p.isRemote = false))

/-- If no code that is not remote names a remote call, then no call of such code comes to one. -/
theorem isRemote_of_callInvokes
    (hbodies : ∀ t ∈ a.types, ∀ p ∈ t.procedures, p.isRemote = false → ∀ body ∈ p.body,
      body.code.Names a.LocalName)
    (hname : a.LocalName name) {q : Procedure} (h : a.CallInvokes object name args host q) :
    q.isRemote = false := by
  have hlocal : ∀ v m p, a.LocalName m.name → a.calleeOf object v m = .ok p →
      p.isRemote = false ∧ ∀ body, p.body = some body → body.code.Names a.LocalName := by
    intro v m p hm hcallee
    obtain ⟨t, ht, hp, hpname⟩ := of_calleeOf hcallee
    have hremote := hm t ht p hp hpname
    exact ⟨hremote, fun body hbody => hbodies t ht p hp hremote body hbody⟩
  obtain ⟨m, hfound, hinvokes⟩ := h
  have hm : a.LocalName m.name := name_of_methodNamed hfound ▸ hname
  cases hinvokes with
  | called hcallee => exact (hlocal _ _ _ hm hcallee).1
  | later hcallee hbody hleads hcalls hlast =>
    have hcode := (hlocal _ _ _ hm hcallee).2 _ hbody
    have hplace := names_of_leads hleads ⟨hcode, hcode⟩
      fun z _ hz v m _ _ p body hcalls hcallee => (hlocal v m p (hcalls.name hz) hcallee).2 body
    exact (hlocal _ _ _ (hcalls.name hplace) hlast).1

end Assembly

/-! ### Calls after weaving -/

/-- A call that comes to no remote call does after weaving what it did before: it ends as it did
and hands the same to the host. -/
theorem Loom.call_transparent (loom : Loom) {a : Assembly} (hnames : a.NamesDiffer)
    (hfresh : ∀ t ∈ a.types, t.Fresh)
    (huser : ∀ t ∈ a.types, ∀ p ∈ t.procedures, ∀ body ∈ p.body, body.code.Names UserName)
    (object : NetObject) {name : String} (hname : UserName name) (args : List Value) (host : Host)
    (hlocal : ∀ p, a.CallInvokes object name args host p → p.isRemote = false) :
    (loom.weave (.start a)).1.assembly.call object name args host =
      a.call object name args host := by
  have hcovers := loom.covers_weave hnames hfresh
  have hcode : ∀ v m p body, a.calleeOf object v m = .ok p → p.body = some body →
      body.code.Names UserName := by
    intro v m p body hcallee hbody
    obtain ⟨t, ht, hp, -⟩ := Assembly.of_calleeOf hcallee
    exact huser t ht p hp body hbody
  rw [Assembly.call, Assembly.call, hcovers.methodNamed_eq _ hname]
  cases hfound : a.methodNamed object.typeName name with
  | error e => rfl
  | ok m =>
    have hm : UserName m.name := Assembly.name_of_methodNamed hfound ▸ hname
    have hinvoke : (loom.weave (.start a)).1.assembly.invoke object true m args none host =
        a.invoke object true m args none host := by
      rw [Assembly.invoke_eq, Assembly.invoke_eq, Assembly.enter_congr]
      · apply hcovers.calleeOf_eq hm
        intro p hcallee
        exact hlocal p ⟨m, hfound, .called hcallee⟩
      · intro p body hcallee hbody
        apply Assembly.outcome_congr
        intro y hleads v' m' args' s' hcalls
        have hentry : (Place.entry p body args
            ⟨⟨[], [], []⟩, host, none, stepBudget⟩).Names UserName :=
          ⟨hcode _ _ _ _ hcallee hbody, hcode _ _ _ _ hcallee hbody⟩
        have hplace := Assembly.names_of_leads hleads hentry
          fun _ _ _ v m _ _ p body _ hcallee hbody => hcode v m p body hcallee hbody
        apply hcovers.calleeOf_eq (hcalls.name hplace)
        intro q hcallee'
        exact hlocal q ⟨m, hfound, .later hcallee hbody hleads hcalls hcallee'⟩
    simp only [hinvoke]

namespace Sample

/-- Loads, as each type does it. -/
def load : Procedure :=
  { Procedure.declare "Load" with
    modifiers := { Modifiers.default with isVirtual := true }
    body := some (.recording "app::load" 0) }

/-- Loads and, however that ends, says so. -/
def reload : Procedure :=
  { Procedure.declare "Reload" with
    body := some (.ofCode [.region [.loadSelf, .call (.method ⟨"Unit", "Load", []⟩)]
      [.warn "reloaded"], .leave]) }

/-- How leaders load. -/
def loadMore : Procedure :=
  { load with
    modifiers := { Modifiers.default with isOverride := true }
    body := some (.ofCode [.loadSelf, .call (.base ⟨"Unit", "Load", []⟩), .loadSelf,
      .call (.base ⟨"Unit", "Load", []⟩), .leave]) }

/-- The chain with procedures that are no remote calls. -/
def depot : Assembly :=
  ⟨[⟨"Unit", none, [fire, load, reload]⟩, ⟨"Leader", some "Unit", [announce, loadMore]⟩]⟩

end Sample

/-- A leader of the depot reloads as it did before weaving. -/
theorem Loom.call_transparent_depot :
    Sample.depot.NamesDiffer ∧ (∀ t ∈ Sample.depot.types, t.Fresh) ∧
    (∀ t ∈ Sample.depot.types, ∀ p ∈ t.procedures, ∀ body ∈ p.body, body.code.Names UserName) ∧
    UserName "Reload" ∧
    (∀ p, Sample.depot.CallInvokes (.server "Leader" none) "Reload" [] .fresh p →
      p.isRemote = false) ∧
    (Sample.loom.weave (.start Sample.depot)).2.reports.length = 2 ∧
    ((Sample.depot.call (.server "Leader" none) "Reload" [] .fresh).1 = .ok () ∧
      (Sample.depot.call (.server "Leader" none) "Reload" [] .fresh).2.externalCalls.size = 2) ∧
    (Sample.loom.weave (.start Sample.depot)).1.assembly.call (.server "Leader" none) "Reload" []
        .fresh =
      Sample.depot.call (.server "Leader" none) "Reload" [] .fresh := by
  have hnames : Sample.depot.NamesDiffer := by decide
  have hunwoven : ∀ t ∈ Sample.depot.types, t.Unwoven := by decide
  have hfresh : ∀ t ∈ Sample.depot.types, t.Fresh := fun t ht => (hunwoven t ht).fresh
  have huser : ∀ t ∈ Sample.depot.types, ∀ p ∈ t.procedures, ∀ body ∈ p.body,
      body.code.Names UserName := by
    decide +kernel
  have hname : UserName "Reload" := by decide +kernel
  have hbodies : ∀ t ∈ Sample.depot.types, ∀ p ∈ t.procedures, p.isRemote = false →
      ∀ body ∈ p.body, body.code.Names Sample.depot.LocalName := by
    decide +kernel
  have hlocal : ∀ p, Sample.depot.CallInvokes (.server "Leader" none) "Reload" [] .fresh p →
      p.isRemote = false :=
    fun _ h => Assembly.isRemote_of_callInvokes hbodies (by decide +kernel) h
  exact ⟨hnames, hfresh, huser, hname, hlocal, by decide +kernel, by decide +kernel,
    Loom.call_transparent Sample.loom hnames hfresh huser _ hname [] .fresh hlocal⟩

end RpcLoom
