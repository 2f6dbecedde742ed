/-
RpcLoom/Proofs/Carriers.lean

What stands behind an entry of a dispatch table.

Design.  A type carries the calls of a kind under an id if one of its procedures
forwards to the sender of the kind, this sender sends the id, and the receiver is
there (`TypeDef.Carries`).  Weaving leaves every registered call carried
(`Woven.carries`), and a type that lasts goes on carrying it: one that only gets
more procedures, or whose base calls are led on (`Carries.lasts`).  A type backs
a table if it carries every call that the table was made of.
-/
import RpcLoom.Proofs.SentIds
import RpcLoom.Proofs.Repetition
import RpcLoom.Proofs.Resolving

namespace RpcLoom

/-- The code of a procedure passes all its arguments on to another one. -/
def Procedure.ForwardsTo (p : Procedure) (ref : MethodRef) : Prop :=
  ∃ b, p.body = some b ∧ forward p.parameters.length ref <:+: b.code

/-! ### Types that last -/

namespace TypeDef

variable {t u v : TypeDef}

/-- A type keeps its procedures, but for the code of logic; more may follow. -/
structure Lasts (t u : TypeDef) : Prop where
  name : u.name = t.name
  headings : t.procedures.map (·.heading) <+: u.procedures.map (·.heading)
  kept : ∀ i p, t.procedure? i = some p → (∀ s, p.origin ≠ .synthesized ⟨.logic, s⟩) →
    u.procedure? i = some p

theorem Lasts.refl (t : TypeDef) : t.Lasts t := ⟨rfl, List.prefix_rfl, fun _ _ h _ => h⟩

theorem Lasts.grows (h : t.Lasts u) : t.Grows u := by
  refine ⟨h.name, ?_⟩
  have := h.headings.map Procedure.origin
  rwa [List.map_map, List.map_map] at this

theorem lasts_push (t : TypeDef) (p : Procedure) : t.Lasts (t.push p) := by
  refine ⟨rfl, by simp [push], fun i q hq _ => ?_⟩
  rw [procedure?_push_of_lt (lt_of_procedure? hq), hq]

theorem Relinked.lasts (h : t.Relinked u) : t.Lasts u := by
  refine ⟨h.name_eq, ?_, fun i p hp ho => h.kept i p hp (.inl ho)⟩
  have : u.procedures.map (·.heading) = t.procedures.map (·.heading) :=
    congrArg TypeDef.procedures h.bare
  exact this ▸ List.prefix_rfl

/-! ### Calls that are carried -/

/-- A type carries the calls of a kind under an id: the procedure at a position forwards them to
a sender that sends this id, and there is a receiver for them. -/
structure Carries (t : TypeDef) (kind : Kind) (id : RpcId) (m : ProcedureId) (p : Procedure) :
    Prop where
  here : t.procedure? m = some p
  declared : p.isDeclared = true
  reader : ∃ r, t.findSynthesized? ⟨.reader kind, p.signature⟩ = some r
  writer : ∃ w q b, t.findSynthesized? ⟨.writer kind, p.signature⟩ = some w ∧
    t.procedure? w = some q ∧ q.body = some b ∧ b.Sends kind id
  forwards : p.ForwardsTo ((⟨.writer kind, p.signature⟩ : SynthKey).ref t.name)

/-- A type that lasts goes on carrying calls. -/
theorem Carries.lasts {kind : Kind} {id : RpcId} {m : ProcedureId} {p : Procedure}
    (h : t.Carries kind id m p) (hl : t.Lasts u) : u.Carries kind id m p := by
  obtain ⟨r, hr⟩ := h.reader
  obtain ⟨w, q, b, hw, hq, hb, hsends⟩ := h.writer
  refine ⟨hl.kept m p h.here fun s ho => ?_, h.declared, ⟨r, hl.grows.find hr⟩,
    ⟨w, q, b, hl.grows.find hw, hl.kept w q hq fun s ho => ?_, hb, hsends⟩, ?_⟩
  · have := h.declared
    exact absurd ho (Procedure.origin_ne_of_isDeclared this _)
  · obtain ⟨q', hq', ho'⟩ := procedure?_of_findSynthesized? hw
    obtain rfl := Option.some.inj (hq.symm.trans hq')
    cases congrArg SynthKey.role (Origin.synthesized.inj (ho.symm.trans ho'))
  · rw [hl.name]
    exact h.forwards

end TypeDef

/-! ### Woven calls -/

/-- What an installed call forwards to is in its forwarder, for each of its kinds. -/
theorem Job.Installed.forwards {loom : Loom} {j : Job} {t : TypeDef} {triad : Triad} {b : Body}
    (h : Installed loom j t triad) (hb : triad.forwarderBody j.served j.contract = .ok b)
    {kind : Kind} (hkind : kind ∈ j.contract.kinds.toList) :
    (j.served.withBody b).ForwardsTo ((j.key (.writer kind)).ref t.name) := by
  refine ⟨b, rfl, ?_⟩
  show forward j.served.parameters.length _ <:+: b.code
  obtain ⟨sending, hsending, hb⟩ := of_bind hb
  obtain rfl := Except.ok.inj hb
  rw [Body.code_emit]
  refine List.IsInfix.trans ?_ (List.prefix_append _ _).isInfix
  -- the code that picks a sender stands in front, with nothing before it
  unfold Triad.sendingBody at hsending
  cases hkinds : j.contract.kinds with
  | single k =>
    rw [hkinds] at hkind hsending
    obtain rfl : kind = k := by simpa [KindSet.toList] using hkind
    have href := h.writerRef kind (by rw [hkinds]; exact hkind) j.served.name
    simp only [href, bind, Except.bind, Except.ok.injEq] at hsending
    rw [← hsending]
    exact List.infix_rfl
  | observersAndTarget =>
    rw [hkinds] at hkind hsending
    have hone := h.writerRef .target (by simp [hkinds, KindSet.toList]) j.served.name
    have hall := h.writerRef .observers (by simp [hkinds, KindSet.toList]) j.served.name
    simp only [hone, hall, bind, Except.bind, Except.ok.injEq] at hsending
    rw [← hsending]
    have hkind : kind = .observers ∨ kind = .target := by simpa [KindSet.toList] using hkind
    rcases hkind with rfl | rfl
    · exact ⟨_, _, (List.nil_append _).symm⟩
    · exact ⟨[.loadArg 0, .jumpIfNull _], _, by simp only [Body.code_emit, List.append_assoc]; rfl⟩

theorem Job.Woven.carries {loom : Loom} {j : Job} {t : TypeDef} {triad : Triad} {b : Body}
    (h : Woven loom j t triad b) (hd : j.served.isDeclared = true) {kind : Kind}
    (hkind : kind ∈ j.contract.kinds.toList) :
    t.Carries kind j.rpcId j.id (j.served.withBody b) := by
  obtain ⟨s, -, hs⟩ := h.installed.reader? hkind
  obtain ⟨stub, body, -, hw, hbody⟩ := h.installed.writer? hkind
  exact ⟨h.here, hd, ⟨s.id, hs.found⟩, ⟨stub.id, _, body, hw.found, hw.current, rfl,
    Body.sends_sender hbody⟩, h.installed.forwards h.forwarder hkind⟩

/-! ### Tables that are backed -/

namespace TypeDef

/-- A type carries the calls of a registration, one for each of its handlers. -/
def Honours (t : TypeDef) (r : Registration) : Prop :=
  ∃ p, p.isRemote = true ∧ ∀ h ∈ r.handlers,
    h.readerRef = (⟨.reader h.kind, p.signature⟩ : SynthKey).ref t.name ∧
    t.Carries h.kind r.id r.procedure p

/-- A table was made of calls that a type carries. -/
def Backs (t : TypeDef) (table : DispatchTable) : Prop :=
  ∃ rs : List Registration, table = .ofRegistrations rs ∧ (rs.map (·.procedure)).Nodup ∧
    ∀ r ∈ rs, t.Honours r

theorem Backs.lasts {t u : TypeDef} {table : DispatchTable} (h : t.Backs table) (hl : t.Lasts u) :
    u.Backs table := by
  obtain ⟨rs, htable, hnodup, hall⟩ := h
  refine ⟨rs, htable, hnodup, fun r hr => ?_⟩
  obtain ⟨p, hp, hhandlers⟩ := hall r hr
  refine ⟨p, hp, fun handler hhandler => ?_⟩
  obtain ⟨href, hcarries⟩ := hhandlers handler hhandler
  exact ⟨by rw [href, hl.name], hcarries.lasts hl⟩

end TypeDef

namespace DispatchTable

/-- What a table gives after a registration it gave before, or the registration asked for it. -/
theorem of_get?_register {t : DispatchTable} {r : Registration} {kind : Kind} {id : RpcId}
    {entry : DispatchEntry} (h : (t.register r).get? kind id = some entry) :
    t.get? kind id = some entry ∨ ∃ handler ∈ r.handlers,
      r.id = id ∧ handler.kind = kind ∧
        entry = ⟨handler.readerRef, r.runLocally, handler.policy⟩ := by
  rw [register] at h
  generalize r.handlers = handlers at h ⊢
  induction handlers generalizing t with
  | nil => exact .inl h
  | cons first rest ih =>
    rcases ih h with h | ⟨handler, hmem, hhandler⟩
    · rw [get?_insert] at h
      split at h
      next hkey =>
        obtain ⟨hkind, hid⟩ := CallKey.mk.inj hkey
        exact .inr ⟨first, by simp, hid, hkind, (Option.some.inj h).symm⟩
      next => exact .inl h
    · exact .inr ⟨handler, by simp [hmem], hhandler⟩

/-- What the table of a list of registrations gives, a handler of one of them. -/
theorem handler_of_get? {rs : List Registration} {kind : Kind} {id : RpcId}
    {entry : DispatchEntry} (h : (ofRegistrations rs).get? kind id = some entry) :
    ∃ r ∈ rs, ∃ handler ∈ r.handlers, r.id = id ∧ handler.kind = kind ∧
      entry = ⟨handler.readerRef, r.runLocally, handler.policy⟩ := by
  have hall : ∀ t : DispatchTable, (rs.foldl register t).get? kind id = some entry →
      t.get? kind id = some entry ∨ ∃ r ∈ rs, ∃ handler ∈ r.handlers, r.id = id ∧
        handler.kind = kind ∧ entry = ⟨handler.readerRef, r.runLocally, handler.policy⟩ := by
    clear h
    induction rs with
    | nil => exact fun t ht => .inl ht
    | cons r rs ih =>
      intro t ht
      rcases ih (t.register r) ht with ht | ⟨r', hr', hrest⟩
      · rcases of_get?_register ht with ht | hhandler
        · exact .inl ht
        · exact .inr ⟨r, by simp, hhandler⟩
      · exact .inr ⟨r', by simp [hr'], hrest⟩
  rcases hall empty h with h | h
  · cases h
  · exact h

/-- What the table of a list of registrations gives, one of them asked for. -/
theorem of_get?_ofRegistrations {rs : List Registration} {kind : Kind} {id : RpcId}
    {entry : DispatchEntry} (h : (ofRegistrations rs).get? kind id = some entry) :
    ∃ r ∈ rs, ∃ handler ∈ r.handlers, r.id = id ∧ handler.kind = kind ∧
      handler.readerRef = entry.reader := by
  obtain ⟨r, hr, handler, hhandler, hid, hkind, rfl⟩ := handler_of_get? h
  exact ⟨r, hr, handler, hhandler, hid, hkind, rfl⟩

end DispatchTable

/-! ### Woven types -/

section

variable {loom : Loom} {w w' : TypeWeaving} {turns : List (Job × Fate)} {t : TypeDef}

/-- The procedures registered in a sequence of turns are those of the turns, in order. -/
theorem Turns.registered_sublist (turns : List (Job × Fate)) :
    ((turns.filterMap fun x => x.2.registration? x.1).map (·.procedure)).Sublist
      (turns.map (·.1.id)) := by
  induction turns with
  | nil => exact .slnil
  | cons x rest ih =>
    obtain ⟨j, f⟩ := x
    cases f with
    | woven triad b => exact ih.cons_cons j.id
    | cleared e => exact ih.cons j.id

/-- A woven type whose calls differ backs its table. -/
theorem Loom.backs_weaveTypeDef {counter : IdCounter} {log : Log} {v : TypeWeaving}
    (h : loom.weaveTypeDef t counter = (log, .ok v)) (hc : t.Canonical)
    (hdiffer : t.CallsDiffer) : v.type.Backs v.table := by
  obtain ⟨-, -, turns, hturns, hmap⟩ := turns_of_weaveTypeDef h
  have hids := Turns.nodup_ids hmap
  have hregs : v.registrations = turns.filterMap fun x => x.2.registration? x.1 := by
    simpa [Loom.beginType] using hturns.registrations_eq
  refine ⟨v.registrations, rfl, hregs ▸ hids.sublist (Turns.registered_sublist turns),
    fun r hr => ?_⟩
  rw [hregs] at hr
  obtain ⟨⟨j, f⟩, hx, hreg⟩ := List.mem_filterMap.mp hr
  -- what this turn put in place the later turns leave there, as no two of them share a name
  have hleft := hturns.left hc (hturns.apart hids hdiffer) hx
  cases f with
  | cleared e => cases hreg
  | woven triad b =>
    obtain rfl := Option.some.inj hreg
    obtain ⟨hd, -⟩ := hturns.declared hx
    obtain ⟨p, -, -, hremote, hhead⟩ :=
      TypeDef.mem_remotes.mp (hturns.mem_remotes hids hx)
    refine ⟨j.served.withBody b, ?_, fun handler hhandler => ?_⟩
    · rw [← hremote, ← p.isRemote_heading, ← hhead]
      rfl
    · have hmem := List.mem_map_of_mem
        (f := fun h : Handler => (h.kind, h.readerRef, h.policy)) hhandler
      rw [hleft.installed.handlers] at hmem
      obtain ⟨kind, hkind, heq⟩ := List.mem_map.mp hmem
      obtain ⟨rfl, heq⟩ := Prod.mk.inj heq
      exact ⟨(Prod.mk.inj heq).1.symm, hleft.carries hd hkind⟩

end

end RpcLoom
