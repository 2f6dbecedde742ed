/-
RpcLoom/Proofs/BaseCode.lean

The code that base calls reach.

Design.  Before weaving, a base call runs what its reference finds.  After a run
in which nothing failed, the call at the same place of the logic runs the logic
on the nearest type above that offers one; there is such a type, since a link
whose calls found none would have failed (`Faultless.owner`).  So the call
reaches the code it reached before where that code was the body of an annotated
procedure of that nearest type, and not otherwise: a call that reached further
up, or that reached a procedure that is no remote call, is led elsewhere.
-/
import RpcLoom.Proofs.Faultless

namespace RpcLoom

namespace TypeDef

/-- The first procedure of a signature, if it is annotated, is the first annotated one. -/
theorem firstCall?_of_findSignature? {t : TypeDef} {n : ProcedureId} {q : Procedure}
    (ht : t.Fresh) (hq : t.procedure? n = some q) (hn : t.findSignature? q.signature = some n)
    (hremote : q.isRemote = true) : t.firstCall? q.signature = some n := by
  have hmem : (n, q.heading) ∈ t.remotes := mem_remotes.mpr ⟨q, hq, ht n q hq, hremote, rfl⟩
  have hsome : (t.remotes.find? (·.2.signature == q.signature)).isSome = true :=
    List.find?_isSome.mpr ⟨_, hmem, by simp⟩
  obtain ⟨⟨m, head⟩, hfind⟩ := Option.isSome_iff_exists.mp hsome
  obtain ⟨hsig, before, after, hsplit, hbefore⟩ := List.find?_eq_some_iff_append.mp hfind
  rw [firstCall?, hfind, Option.map_some, Option.some.injEq]
  show m = n
  -- the search for the signature ends no later
  have hle : n ≤ m := by
    have hm : (m, head) ∈ t.remotes := List.mem_of_find?_eq_some hfind
    obtain ⟨p, hp, -, -, rfl⟩ := mem_remotes.mp hm
    obtain ⟨hlt, hget⟩ := List.getElem?_eq_some_iff.mp hp
    obtain ⟨_, _, hfirst⟩ := List.findIdx?_eq_some_iff_getElem.mp hn
    by_contra hnot
    have hcontra := hfirst m (Nat.lt_of_not_le hnot)
    rw [hget] at hcontra
    exact hcontra hsig
  rw [hsplit] at hmem
  rcases List.mem_append.mp hmem with hmem | hmem
  · have hcontra := hbefore _ hmem
    simp at hcontra
  · rcases List.mem_cons.mp hmem with heq | hmem
    · exact (Prod.mk.inj heq).1.symm
    · -- what stands behind the first one has a larger position
      have hsorted : (t.remotes.map (·.1)).Pairwise (· < ·) :=
        t.outline_sorted.sublist (List.filter_sublist.map _)
      rw [hsplit, List.map_append, List.map_cons] at hsorted
      have hlt : m < n := (List.pairwise_cons.mp (List.pairwise_append.mp hsorted).2.1).1 n
        (List.mem_map_of_mem (f := fun x => x.1) hmem)
      exact absurd hlt (Nat.not_lt.mpr hle)

end TypeDef

namespace Loom

variable {loom : Loom} {a : Assembly} {w : Weaving} {i : TypeId} {t : TypeDef}
  {above : List TypeId} {p : Procedure} {m : ProcedureId} {body : Body} {ref : MethodRef}

/-- The logic of a virtual call has no base calls left. -/
theorem Faultless.quiet (h : loom.Faultless a w) (ht : a.type? i = some t)
    (hab : a.ancestors i = .ok above) (hfirst : t.firstCall? p.signature = some m)
    (hp : t.procedure? m = some p) (hvirtual : p.isVirtual = true) (hbody : p.body = some body) :
    ∀ x ∈ (body.mapMethods (a.leading above p)).nested, ∀ ref, x.method? = some ref →
      ¬ (ref.signature = p.signature ∧ ref.owner ∈ a.namesOf above) := by
  obtain ⟨above', counter, turns, v, hab', hflawless, hv, hlinks, -, -⟩ := h.types i t ht
  obtain rfl := Except.ok.inj (hab.symm.trans hab')
  obtain ⟨l, body', hbody', hfound, hlogic, hlink⟩ :=
    hflawless.logic (h.fresh t (List.mem_of_getElem? ht)) hfirst hp
  obtain ⟨failures, b, hfollow, hrelinked, hsettled, -⟩ :=
    LogicLink.followAll_settles (w := { w with links := [] }) h.ready
  have hunfailing := h.unfailing
  rw [hfollow] at hunfailing
  -- the link of this logic is settled, and without a failure
  obtain ⟨k, above₁, F, q, hready, hs⟩ :=
    LogicLink.settledIn_of_unfailing hsettled hunfailing (hlinks (hlink hvirtual))
  have hkeeps := h.keeps ht hfirst hp
  rw [← h.followed, hfollow] at hkeeps
  obtain ⟨l', F', above₂, body₂, hF', hab₂, hbody₂, hfound', hcode⟩ := hkeeps
  obtain rfl := Except.ok.inj (hab.symm.trans hab₂)
  obtain rfl := Option.some.inj (hbody.symm.trans hbody₂)
  obtain ⟨G, hG, hrelink⟩ := hrelinked.types i _ hv
  obtain rfl : G = F' := Option.some.inj (hG.symm.trans hF')
  rw [hrelink.findSynthesized?_eq, hfound] at hfound'
  obtain rfl := Option.some.inj hfound'
  have hfaces : a.faces = b.faces :=
    h.faces.trans (Assembly.faces_of_bare_eq hrelinked.bare).symm
  have hfind : b.find? t.name = some i := by
    rw [← Assembly.find?_congr hfaces]
    exact h.names.find? ht
  have habove : b.ancestors i = .ok above := by rw [← Assembly.ancestors_congr hfaces, hab]
  obtain ⟨rfl, rfl, rfl, rfl⟩ := hready.eq_of_find hfind habove hF' hcode
  cases hs with
  | quiet hquiet =>
    have hcalls := hquiet _ rfl
    have hnames : b.namesOf above = a.namesOf above := by
      rw [Assembly.namesOf_congr hrelinked.bare]
      exact h.namesOf_eq above
    intro x hx ref href hbase
    rw [hnames] at hcalls
    have hx' := List.any_eq_false.mp hcalls x hx
    rw [LogicLink.isBaseCall, href] at hx'
    simp [LogicLink.isBaseRef, hbase.1, hbase.2] at hx'

/-- Where the code of a virtual call has a base call, some type above offers logic. -/
theorem Faultless.owner (h : loom.Faultless a w) (ht : a.type? i = some t)
    (hab : a.ancestors i = .ok above) (hfirst : t.firstCall? p.signature = some m)
    (hp : t.procedure? m = some p) (hvirtual : p.isVirtual = true) (hbody : p.body = some body)
    (hcall : .call (.base ref) ∈ body.nested) (hsig : ref.signature = p.signature)
    (howner : ref.owner ∈ a.namesOf above) :
    ∃ k, a.logicOwner? above p.signature = some k := by
  cases hk : a.logicOwner? above p.signature with
  | some k => exact ⟨k, rfl⟩
  | none =>
    -- the call would still be there
    have hsame : a.leading above p ref = ref := by
      rw [Assembly.leading, Assembly.logicAbove?, hk]
      exact ite_self _
    have hmem : .call (.base ref) ∈ (body.mapMethods (a.leading above p)).nested := by
      rw [Body.nested_mapMethods]
      exact List.mem_map.mpr ⟨_, hcall, by simp [Callee.mapMethod, hsame]⟩
    exact absurd ⟨hsig, howner⟩ (h.quiet ht hab hfirst hp hvirtual hbody _ hmem ref rfl)

/-- Weaving without failure leads every base call of a virtual call to the nearest type above that
offers logic for it.  The code of the call is in its logic, instruction for instruction; the base
call at each place refers to the logic on that nearest type, and finds there the logic that holds
the code of the type's first call of the signature, or else what the type declares under the
logic's name.  So if that is the type where the base call ended before weaving, and the procedure
it ended at is annotated, it finds the logic that holds this procedure's code. -/
theorem base_calls_led (loom : Loom) (a : Assembly) (hnames : a.NamesDiffer)
    (hfresh : ∀ t ∈ a.types, t.Fresh) (hok : (loom.weave (.start a)).2.allErrors = [])
    {c : TypeId} {t : TypeDef} {above : List TypeId} (ht : a.type? c = some t)
    (hab : a.ancestors c = .ok above) {m : ProcedureId} {p : Procedure} {body : Body}
    (hp : t.procedure? m = some p) (hfirst : t.firstCall? p.signature = some m)
    (hvirtual : p.isVirtual = true) (hbody : p.body = some body) {k : Nat} {ref : MethodRef}
    (hcall : body.nested[k]? = some (.call (.base ref))) (hsig : ref.signature = p.signature)
    (howner : ref.owner ∈ a.namesOf above) {i : TypeId} {n : ProcedureId} {u : TypeDef}
    {q : Procedure} (hresolve : a.resolve ref = .ok (i, n)) (hu : a.type? i = some u)
    (hq : u.procedure? n = some q) :
    ∃ F l code j v l',
      (loom.weave (.start a)).1.assembly.type? c = some F ∧
      F.findSynthesized? ⟨.logic, p.signature⟩ = some l ∧
      F.procedure? l = some (p.logicOf code) ∧
      code.nested.length = body.nested.length ∧
      a.logicOwner? above p.signature = some j ∧ a.type? j = some v ∧
      code.nested[k]? = some (.call (.base (SynthKey.ref ⟨.logic, p.signature⟩ v.name))) ∧
      (loom.weave (.start a)).1.assembly.resolve (SynthKey.ref ⟨.logic, p.signature⟩ v.name) =
        .ok (j, l') ∧
      a.LogicAt (loom.weave (.start a)).1.assembly j v p.signature l' ∧
      (i = j → q.isRemote = true → a.Keeps (loom.weave (.start a)).1.assembly i q l') := by
  obtain ⟨w, h⟩ := faultless_of_errors hnames hfresh hok
  obtain ⟨l, F, above', body', hF, hab', hbody', hfound, hcode⟩ := h.keeps ht hfirst hp
  obtain rfl := Except.ok.inj (hab.symm.trans hab')
  obtain rfl := Option.some.inj (hbody.symm.trans hbody')
  -- no error was reported, so there is a type above that the base call is led to
  obtain ⟨j, hj⟩ := h.owner ht hab hfirst hp hvirtual hbody (List.mem_of_getElem? hcall) hsig
    howner
  obtain ⟨v, l', hv, hled, hlogicAt⟩ := h.resolve_logic hab hj
  have hleading : a.leading above p ref = SynthKey.ref ⟨.logic, p.signature⟩ v.name := by
    rw [Assembly.leading, if_pos ⟨hvirtual, hsig, howner⟩, Assembly.logicAbove?, hj,
      Option.bind_some, hv, Option.map_some, Option.getD_some]
  refine ⟨F, l, _, j, v, l', hF, hfound, hcode, ?_, hj, hv, ?_, hled, hlogicAt, ?_⟩
  · rw [Body.nested_mapMethods, List.length_map]
  · rw [Body.nested_mapMethods, List.getElem?_map, hcall, ← hleading]
    simp [Callee.mapMethod]
  · rintro rfl hremote
    obtain rfl := Option.some.inj (hu.symm.trans hv)
    obtain ⟨u', q', hu', hn, hq', hqsig⟩ := Assembly.of_resolve hresolve
    obtain rfl := Option.some.inj (hu.symm.trans hu')
    obtain rfl := Option.some.inj (hq.symm.trans hq')
    -- where both searches end at one type, the one for the code finds the first call of the
    -- signature there, and that is the call whose code the logic took
    have hcallFirst := TypeDef.firstCall?_of_findSignature? (h.fresh u (List.mem_of_getElem? hu))
      hq (hqsig ▸ hn) hremote
    exact hlogicAt.keeps (by rw [← hsig, ← hqsig]; exact hcallFirst) hq

end Loom

/-! ### A tower of four types -/

/-- The procedures that the logic for a signature calls, in the type at a position. -/
def Assembly.logicCalls? (a : Assembly) (i : TypeId) (s : Signature) : Option (List MethodRef) := do
  let t ← a.type? i
  let l ← t.findSynthesized? ⟨.logic, s⟩
  let p ← t.procedure? l
  let body ← p.body
  some (body.nested.filterMap (·.method?))

namespace Sample

/-- What the procedures of the tower are called. -/
def hit : Signature := ⟨"Hit", []⟩

/-- A reference to the procedure of the tower on one of its types. -/
def hitOf (owner : String) : MethodRef := ⟨owner, hit.name, hit.types⟩

/-- The procedure of the tower that a type overrides. -/
def override (attributes : List Attribute) (code : Block) : Procedure :=
  { Procedure.declare hit.name with
    attributes, modifiers := { Modifiers.default with isOverride := true }
    body := some (.ofCode code) }

/-- A remote call that may be overridden. -/
def rootHit : Procedure :=
  { override [⟨"ServerRpc", []⟩] [.leave] with
    modifiers := { Modifiers.default with isVirtual := true } }

/-- An override of it that calls it. -/
def midHit : Procedure :=
  override [⟨"ServerRpc", []⟩] [.loadSelf, .call (.base (hitOf "Root")), .leave]

/-- An override that is no remote call. -/
def lowHit : Procedure := override [] [.leave]

/-- The code of the last override, which calls the third and the first. -/
def leafCode : Block :=
  [.loadSelf, .call (.base (hitOf "Low")), .loadSelf, .call (.base (hitOf "Root")), .leave]

/-- An override with this code. -/
def leafHit : Procedure := override [⟨"ServerRpc", []⟩] leafCode

/-- Four types, each deriving from the one before. -/
def tower : Assembly :=
  ⟨[⟨"Root", none, [rootHit]⟩, ⟨"Mid", some "Root", [midHit]⟩, ⟨"Low", some "Mid", [lowHit]⟩,
    ⟨"Leaf", some "Low", [leafHit]⟩]⟩

theorem unwoven_tower : ∀ t ∈ tower.types, t.Unwoven := by decide

end Sample

open Sample in
/-- The first base call of the last type of the tower, which reached the third type before, finds
the logic that holds the code of the second. -/
theorem Loom.base_calls_led_tower :
    tower.NamesDiffer ∧ (∀ t ∈ tower.types, t.Fresh) ∧
    (Sample.loom.weave (.start tower)).2.allErrors = [] ∧
    ∃ F l code l', (Sample.loom.weave (.start tower)).1.assembly.type? 3 = some F ∧
      F.findSynthesized? ⟨.logic, hit⟩ = some l ∧ F.procedure? l = some (leafHit.logicOf code) ∧
      code.nested.length = 5 ∧
      code.nested[1]? = some (.call (.base (SynthKey.ref ⟨.logic, hit⟩ "Mid"))) ∧
      (Sample.loom.weave (.start tower)).1.assembly.resolve (SynthKey.ref ⟨.logic, hit⟩ "Mid") =
        .ok (1, l') ∧
      tower.Keeps (Sample.loom.weave (.start tower)).1.assembly 1 midHit l' := by
  have hnames : tower.NamesDiffer := by decide
  have hfresh : ∀ t ∈ tower.types, t.Fresh := fun t ht => (unwoven_tower t ht).fresh
  have hok : (Sample.loom.weave (.start tower)).2.allErrors = [] := by decide +kernel
  have hab : tower.ancestors 3 = .ok [2, 1, 0] := by decide +kernel
  have hcall : (Body.ofCode leafCode).nested[1]? = some (.call (.base (hitOf "Low"))) := rfl
  have hreached : tower.resolve (hitOf "Low") = .ok (2, 0) := by decide +kernel
  obtain ⟨F, l, code, j, v, l', hF, hl, hcode, hlength, hj, hv, hled, hresolve, hlogicAt, -⟩ :=
    base_calls_led Sample.loom tower hnames hfresh hok (t := ⟨"Leaf", some "Low", [leafHit]⟩) rfl
      hab (m := 0) (p := leafHit) rfl (by decide +kernel) rfl rfl hcall rfl (by decide +kernel)
      hreached rfl rfl
  obtain rfl : 1 = j := Option.some.inj hj
  obtain rfl : tower.types[1] = v := Option.some.inj hv
  exact ⟨hnames, hfresh, hok, F, l, code, l', hF, hl, hcode, hlength, hled, hresolve,
    hlogicAt.keeps (n := 0) rfl rfl⟩

open Sample in
/-- The base calls of the last type of the tower are both led to the second type, though one of
them reached the third type and the other the first.  The third type's code is no longer reached,
and neither is the logic of the first. -/
theorem Loom.base_calls_led_astray :
    tower.NamesDiffer ∧ (∀ t ∈ tower.types, t.Unwoven) ∧
    (Sample.loom.weave (.start tower)).2.allErrors = [] ∧
    (tower.resolve (hitOf "Low")).toOption = some (2, 0) ∧
    (tower.resolve (hitOf "Root")).toOption = some (0, 0) ∧
    ∃ called, (Sample.loom.weave (.start tower)).1.assembly.logicCalls? 3 hit = some called ∧
      called.map (fun ref =>
          ((Sample.loom.weave (.start tower)).1.assembly.resolve ref).toOption) =
        [some (1, 1), some (1, 1)] ∧
      called.map (fun ref =>
          ((Sample.loom.weave (.start tower)).1.assembly.resolve ref).toOption) ≠
        [some (2, 0), some (0, 1)] ∧
      ((Sample.loom.weave (.start tower)).1.assembly.type? 0).bind
        (·.findSynthesized? ⟨.logic, hit⟩) = some 1 := by
  refine ⟨by decide, by decide, by decide +kernel, by decide +kernel, by decide +kernel,
    [⟨"Mid", "RpcLogic___Hit", []⟩, ⟨"Mid", "RpcLogic___Hit", []⟩], by decide +kernel,
    by decide +kernel, by decide +kernel, by decide +kernel⟩

end RpcLoom
