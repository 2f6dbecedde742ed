/-
RpcLoom/Proofs/Grammar.lean

The parameter lists that remote calls may have.

Design.  The rules for parameters are read as a grammar: a list splits into a
target, fields, a channel and a caller, in this order, and only the fields may
be many.  A split is tight if neither the caller nor the channel can be made
out of what stands before it.  Every list that splits splits tightly, with no
other fields than before, and in one way only; and the three rules that give
roles by position give those of the tight split.  So what is accepted is what
splits, and the fields that travel stand together.
-/
import Mathlib.Logic.Basic
import RpcLoom.Proofs.Promises

namespace RpcLoom

/-! ### Kinds -/

namespace KindSet

variable {kinds : List Kind} {set : KindSet}

/-- One kind may stand alone, and observers may stand with a target. -/
theorem ofKinds?_eq_some_iff :
    ofKinds? kinds = some set ↔ (∃ k, kinds = [k] ∧ set = .single k) ∨
      ((kinds = [.observers, .target] ∨ kinds = [.target, .observers]) ∧
        set = .observersAndTarget) := by
  unfold ofKinds?
  split
  next k => simp [eq_comm]
  next => simp [eq_comm]
  next => simp [eq_comm]
  next hone hfirst hsecond =>
    constructor
    · intro h
      cases h
    · rintro (⟨k, hk, -⟩ | ⟨hk | hk, -⟩)
      · exact absurd hk (hone k)
      · exact absurd hk hfirst
      · exact absurd hk hsecond

theorem contains_iff (h : ofKinds? kinds = some set) (k : Kind) :
    set.contains k = true ↔ k ∈ kinds := by
  rw [contains, List.contains_iff_mem]
  rcases ofKinds?_eq_some_iff.mp h with ⟨j, rfl, rfl⟩ | ⟨rfl | rfl, rfl⟩
  · rfl
  · rfl
  · simp [toList, or_comm]

theorem isServer_iff (h : ofKinds? kinds = some set) :
    set.isServer = true ↔ kinds = [.server] := by
  rw [isServer, beq_iff_eq]
  rcases ofKinds?_eq_some_iff.mp h with ⟨j, rfl, rfl⟩ | ⟨rfl | rfl, rfl⟩ <;> simp

end KindSet

/-! ### Splits -/

/-- A list of parameters in four parts. -/
structure Split where
  target : List Parameter
  fields : List Parameter
  channel : List Parameter
  caller : List Parameter

namespace Split

variable {s s' : Split} {kinds : List Kind} {set : KindSet} {codec : Codec} {x : Parameter}

/-- The parameters of a split, in order. -/
def parameters (s : Split) : List Parameter := s.target ++ s.fields ++ s.channel ++ s.caller

/-- The role of each parameter by the part it stands in. -/
def roles (s : Split) : List Role :=
  s.target.map (fun _ => .target) ++ s.fields.map (fun _ => .serialized) ++
    s.channel.map (fun _ => .channel) ++ s.caller.map (fun _ => .caller)

/-- The parts around the fields are what calls of some kinds may have there. -/
structure Shaped (s : Split) (kinds : List Kind) : Prop where
  target : if .target ∈ kinds then ∃ x, s.target = [x] ∧ x.type = .connection else s.target = []
  channel : s.channel = [] ∨ ∃ x, s.channel = [x] ∧ x.type = .channel
  caller : s.caller = [] ∨
    kinds = [.server] ∧ ∃ x, s.caller = [x] ∧ x.type = .connection ∧ x.hasDefault = true

/-- All parts are what calls of some kinds may have there: every field can travel. -/
structure Fits (s : Split) (kinds : List Kind) (codec : Codec) : Prop extends s.Shaped kinds where
  fields : ∀ x ∈ s.fields, x.type.isGeneric = false ∧ codec.hasSerializer x.type = true

/-- Neither the caller nor the channel can be taken from what stands before it. -/
structure Tight (s : Split) (kinds : List Kind) : Prop where
  channel : s.channel = [] → ∀ x ∈ (s.target ++ s.fields).getLast?, x.type ≠ .channel
  caller : s.caller = [] → kinds = [.server] → ∀ x ∈ s.parameters.getLast?, ¬ Layout.isCaller x

/-! ### Tight splits -/

theorem Shaped.type_of_target (h : s.Shaped kinds) (hx : x ∈ s.target) : x.type = .connection := by
  have htarget := h.target
  split at htarget
  · obtain ⟨y, hy, htype⟩ := htarget
    rw [hy, List.mem_singleton] at hx
    rw [hx, htype]
  · rw [htarget] at hx
    cases hx

theorem Shaped.target_eq_nil (h : s.Shaped [.server]) : s.target = [] := by
  simpa using h.target

theorem isCaller_iff : Layout.isCaller x = true ↔ x.type = .connection ∧ x.hasDefault = true := by
  simp [Layout.isCaller, TypeRef.isConnection]

/-- The caller, if one can be had, can be taken from the fields. -/
theorem Shaped.take_caller (h : s.Shaped kinds) :
    ∃ s' : Split, s'.Shaped kinds ∧ s'.parameters = s.parameters ∧ s'.fields ⊆ s.fields ∧
      (s'.caller = [] → kinds = [.server] → ∀ x ∈ s'.parameters.getLast?, ¬ Layout.isCaller x) := by
  by_cases hfree : s.caller = [] ∧ kinds = [.server] ∧
      ∃ x ∈ s.parameters.getLast?, Layout.isCaller x
  · obtain ⟨hcaller, rfl, x, hx, hx'⟩ := hfree
    obtain ⟨htype, hdefault⟩ := isCaller_iff.mp hx'
    have htarget := h.target_eq_nil
    rcases h.channel with hchannel | ⟨y, hchannel, hy⟩
    · obtain ⟨fields, hfields⟩ : ∃ fields, s.fields = fields ++ [x] := by
        rw [Split.parameters, htarget, hchannel, hcaller] at hx
        exact List.getLast?_eq_some_iff.mp (by simpa using hx)
      refine ⟨⟨[], fields, [], [x]⟩, ⟨by simp, .inl rfl, .inr ⟨rfl, x, rfl, htype, hdefault⟩⟩,
        ?_, ?_, fun hnil => by cases hnil⟩
      · simp [Split.parameters, htarget, hchannel, hcaller, hfields]
      · simp [hfields]
    · -- a list that ends with a channel does not end with a caller
      obtain rfl : y = x := by simpa [Split.parameters, hchannel, hcaller] using hx
      rw [htype] at hy
      cases hy
  · exact ⟨s, h, rfl, List.Subset.refl _, fun hnil hserver x hx hx' =>
      hfree ⟨hnil, hserver, x, hx, hx'⟩⟩

/-- Every list that splits splits tightly. -/
theorem Shaped.exists_tight (h : s.Shaped kinds) :
    ∃ s' : Split, s'.Shaped kinds ∧ s'.Tight kinds ∧ s'.parameters = s.parameters ∧
      s'.fields ⊆ s.fields := by
  obtain ⟨r, hr, hparameters, hfields, hcaller⟩ := h.take_caller
  rw [← hparameters]
  by_cases hfree : r.channel = [] ∧ ∃ x ∈ (r.target ++ r.fields).getLast?, x.type = .channel
  · obtain ⟨hchannel, x, hx, htype⟩ := hfree
    rcases List.eq_nil_or_concat r.fields with hnil | ⟨fields, y, hy⟩
    · rw [hnil, List.append_nil] at hx
      have := hr.type_of_target (List.mem_of_getLast? hx)
      rw [htype] at this
      cases this
    · obtain rfl : y = x := by simpa [hy] using hx
      rw [List.concat_eq_append] at hy
      have hsame : (⟨r.target, fields, [y], r.caller⟩ : Split).parameters = r.parameters := by
        simp [Split.parameters, hchannel, hy]
      refine ⟨⟨r.target, fields, [y], r.caller⟩, ⟨hr.target, .inr ⟨y, rfl, htype⟩, hr.caller⟩,
        ⟨fun hnil => absurd hnil (List.cons_ne_nil y []), ?_⟩, hsame, ?_⟩
      · rw [hsame]
        exact hcaller
      · refine List.Subset.trans ?_ hfields
        simp [hy]
  · refine ⟨r, hr, ⟨fun hnil x hx htype => hfree ⟨hnil, x, hx, htype⟩, hcaller⟩, rfl, hfields⟩

/-- A tight split has a channel and a caller if any split of the list has. -/
theorem Tight.widest (hs : s.Shaped kinds) (h : s.Tight kinds) (hs' : s'.Shaped kinds)
    (hsame : s'.parameters = s.parameters) :
    (s'.channel ≠ [] → s.channel ≠ []) ∧ (s'.caller ≠ [] → s.caller ≠ []) := by
  have hcaller : s'.caller ≠ [] → s.caller ≠ [] := by
    intro hne hnil
    obtain ⟨hserver, x, hx, hx'⟩ := hs'.caller.resolve_left hne
    refine h.caller hnil hserver x ?_ (isCaller_iff.mpr hx')
    rw [← hsame]
    simp [Split.parameters, hx]
  refine ⟨fun hne hnil => ?_, hcaller⟩
  obtain ⟨x, hx, htype⟩ := hs'.channel.resolve_left hne
  refine h.channel hnil x ?_ htype
  rw [Split.parameters, Split.parameters, hx, hnil, List.append_nil] at hsame
  rcases hs.caller with hc | ⟨-, y, hc, hy, -⟩
  · have hc' : s'.caller = [] := Classical.byContradiction fun hne => hcaller hne hc
    rw [hc, hc', List.append_nil, List.append_nil] at hsame
    simp [← hsame]
  · rcases hs'.caller with hc' | ⟨-, z, hc', -⟩
    · rw [hc, hc', List.append_nil] at hsame
      obtain ⟨-, hxy⟩ := List.append_inj' hsame rfl
      obtain rfl := List.singleton_inj.mp hxy
      rw [htype] at hy
      cases hy
    · rw [hc, hc'] at hsame
      obtain ⟨hsame, -⟩ := List.append_inj' hsame rfl
      simp [← hsame]

theorem Shaped.length_channel_le (h : s.Shaped kinds) : s.channel.length ≤ 1 := by
  rcases h.channel with h | ⟨x, h, -⟩ <;> simp [h]

theorem Shaped.length_caller_le (h : s.Shaped kinds) : s.caller.length ≤ 1 := by
  rcases h.caller with h | ⟨-, x, h, -⟩ <;> simp [h]

theorem Shaped.length_target (h : s.Shaped kinds) :
    s.target.length = if .target ∈ kinds then 1 else 0 := by
  have htarget := h.target
  by_cases hkind : .target ∈ kinds
  · rw [if_pos hkind] at htarget ⊢
    obtain ⟨x, hx, -⟩ := htarget
    rw [hx, List.length_singleton]
  · rw [if_neg hkind] at htarget ⊢
    rw [htarget, List.length_nil]

/-- Splits of one list that have the same parts are the same. -/
theorem Shaped.unique (h : s.Shaped kinds) (h' : s'.Shaped kinds)
    (hsame : s'.parameters = s.parameters) (hchannel : s'.channel = [] ↔ s.channel = [])
    (hcaller : s'.caller = [] ↔ s.caller = []) : s' = s := by
  have hlength : ∀ {l l' : List Parameter}, l.length ≤ 1 → l'.length ≤ 1 → (l' = [] ↔ l = []) →
      l'.length = l.length := by
    intro l l' hl hl' hnil
    rw [← List.length_eq_zero_iff, ← List.length_eq_zero_iff] at hnil
    omega
  have htarget : s'.target.length = s.target.length := h'.length_target.trans h.length_target.symm
  have hchannel' := hlength h.length_channel_le h'.length_channel_le hchannel
  have hcaller' := hlength h.length_caller_le h'.length_caller_le hcaller
  obtain ⟨hsame, hcaller⟩ := List.append_inj' hsame hcaller'
  obtain ⟨hsame, hchannel⟩ := List.append_inj' hsame hchannel'
  obtain ⟨htarget, hfields⟩ := List.append_inj hsame htarget
  obtain ⟨t, f, ch, cc⟩ := s
  obtain ⟨t', f', ch', cc'⟩ := s'
  simp_all

/-! ### Roles -/

/-- The position of a part that has one parameter at most, in a list where it stands behind
others. -/
def position? (before part : List Parameter) : Option Nat :=
  if part = [] then none else some before.length

/-- Giving a role to a part changes the roles of that part. -/
theorem assign_part (before : List Parameter) {part : List Parameter} (hpart : part.length ≤ 1)
    (role : Role) (rs rs' after : List Role) (hbefore : rs.length = before.length)
    (hpart' : rs'.length = part.length) :
    Layout.assign role (position? before part) (rs ++ rs' ++ after) =
      rs ++ part.map (fun _ => role) ++ after := by
  cases part with
  | nil =>
    obtain rfl := List.eq_nil_of_length_eq_zero hpart'
    rfl
  | cons x rest =>
    obtain rfl : rest = [] := by simpa using hpart
    obtain ⟨r, rfl⟩ := List.length_eq_one_iff.mp hpart'
    rw [position?, if_neg (List.cons_ne_nil x []), ← hbefore]
    simp [Layout.assign]

/-- A tight split has its caller where the rule looks for it. -/
theorem Tight.callerIndex?_eq (h : s.Tight kinds) (hs : s.Shaped kinds)
    (hserver : set.isServer = true ↔ kinds = [.server]) :
    Layout.callerIndex? set s.parameters =
      position? (s.target ++ s.fields ++ s.channel) s.caller := by
  rw [Layout.callerIndex?, position?]
  rcases hs.caller with hcaller | ⟨hkinds, x, hx, htype, hdefault⟩
  · rw [if_pos hcaller]
    cases hlast : s.parameters.getLast? with
    | none => rfl
    | some x =>
      have hnot : ¬(set.isServer && Layout.isCaller x) = true := by
        rw [Bool.and_eq_true, hserver]
        exact fun ⟨hkinds, hx⟩ => h.caller hcaller hkinds x hlast hx
      exact if_neg hnot
  · have hlast : s.parameters.getLast? = some x := by simp [parameters, hx]
    have hset : (set.isServer && Layout.isCaller x) = true := by
      rw [Bool.and_eq_true]
      exact ⟨hserver.mpr hkinds, isCaller_iff.mpr ⟨htype, hdefault⟩⟩
    rw [hlast, hx, if_neg (List.cons_ne_nil x [])]
    simp only [hset, if_true, Option.some.injEq, parameters, hx, List.length_append,
      List.length_singleton]
    omega

/-- A tight split has its channel where the rule looks for it. -/
theorem Tight.channelIndex?_eq (h : s.Tight kinds) (hs : s.Shaped kinds)
    (hserver : set.isServer = true ↔ kinds = [.server]) :
    Layout.channelIndex? set s.parameters = position? (s.target ++ s.fields) s.channel := by
  have hcallerIndex := h.callerIndex?_eq hs hserver
  have hnot : ∀ {x : Parameter}, x.type ≠ .channel → ¬ x.type.isChannel = true := by
    intro x hx
    simpa [TypeRef.isChannel] using hx
  have hfront : ∀ x before, (s.target ++ s.fields).reverse = x :: before → s.channel = [] →
      ¬ x.type.isChannel = true := by
    intro x before hrev hnil
    refine hnot (h.channel hnil x ?_)
    rw [← List.head?_reverse, hrev]
    rfl
  rw [Layout.channelIndex?, hcallerIndex, position?, position?]
  rcases hs.caller with hcaller | ⟨-, y, hcaller, htype, -⟩
  · rcases hs.channel with hchannel | ⟨x, hchannel, hx⟩
    · have hps : s.parameters.reverse = (s.target ++ s.fields).reverse := by
        simp [parameters, hchannel, hcaller]
      rw [hps, if_pos hcaller, if_pos hchannel]
      cases hrev : (s.target ++ s.fields).reverse with
      | nil => rfl
      | cons x before =>
        simp only [if_neg (hfront x before hrev hchannel)]
        cases before <;> rfl
    · have hps : s.parameters.reverse = x :: (s.target ++ s.fields).reverse := by
        simp [parameters, hchannel, hcaller]
      have hx' : x.type.isChannel = true := by simp [hx, TypeRef.isChannel]
      rw [hps, hchannel, if_neg (List.cons_ne_nil x [])]
      simp only [hx', if_true]
      simp [parameters, hchannel, hcaller]
  · have hy : ¬ y.type.isChannel = true := hnot (by rw [htype]; exact fun h => by cases h)
    rw [hcaller, if_neg (List.cons_ne_nil y [])]
    rcases hs.channel with hchannel | ⟨x, hchannel, hx⟩
    · have hps : s.parameters.reverse = y :: (s.target ++ s.fields).reverse := by
        simp [parameters, hchannel, hcaller]
      rw [hps, if_pos hchannel]
      simp only [if_neg hy]
      cases hrev : (s.target ++ s.fields).reverse with
      | nil => rfl
      | cons x before => simp [hfront x before hrev hchannel]
    · have hps : s.parameters.reverse = y :: x :: (s.target ++ s.fields).reverse := by
        simp [parameters, hchannel, hcaller]
      have hx' : x.type.isChannel = true := by simp [hx, TypeRef.isChannel]
      rw [hps, hchannel, if_neg (List.cons_ne_nil x [])]
      simp only [if_neg hy, hx', Option.isSome_some, Bool.and_self, if_true, Option.some.injEq,
        parameters, hchannel, hcaller, List.length_append, List.length_singleton]
      omega

/-- A split has its target where the rule looks for it. -/
theorem Shaped.targetIndex?_eq (hs : s.Shaped kinds)
    (htarget : set.contains .target = true ↔ .target ∈ kinds) :
    Layout.targetIndex? set s.parameters = position? [] s.target := by
  have hpart := hs.target
  by_cases hkind : .target ∈ kinds
  · rw [if_pos hkind] at hpart
    obtain ⟨x, hx, htype⟩ := hpart
    simp [Layout.targetIndex?, position?, parameters, hx, htarget.mpr hkind, htype,
      TypeRef.isConnection]
  · rw [if_neg hkind] at hpart
    have hset : ¬ set.contains .target = true := fun h => hkind (htarget.mp h)
    rw [hpart]
    cases s.parameters with
    | nil => rfl
    | cons x rest => simp [Layout.targetIndex?, hset, position?]

/-- The roles of a part before the rules look at it: all of it travels. -/
def travel (part : List Parameter) : List Role := part.map fun _ => .serialized

/-- The rules that give roles by position give those of a tight split. -/
theorem Tight.roles_eq (h : s.Tight kinds) (hs : s.Shaped kinds)
    (hkinds : KindSet.ofKinds? kinds = some set) :
    (Layout.ofParameters set s.parameters).roles = s.roles := by
  have htarget := hs.targetIndex?_eq (KindSet.contains_iff hkinds .target)
  have hcaller := h.callerIndex?_eq hs (KindSet.isServer_iff hkinds)
  have hchannel := h.channelIndex?_eq hs (KindSet.isServer_iff hkinds)
  have hlength : s.target.length ≤ 1 := by
    rw [hs.length_target]
    split <;> omega
  have hstart : List.replicate s.parameters.length .serialized =
      [] ++ travel s.target ++ (travel s.fields ++ travel s.channel ++ travel s.caller) := by
    simp [travel, parameters, List.map_const', List.replicate_append_replicate, Nat.add_assoc]
  have hone := assign_part [] hlength .target [] (travel s.target)
    (travel s.fields ++ travel s.channel ++ travel s.caller) rfl (List.length_map ..)
  have htwo := assign_part (s.target ++ s.fields ++ s.channel) hs.length_caller_le .caller
    (s.target.map (fun _ => .target) ++ travel s.fields ++ travel s.channel) (travel s.caller) []
    (by simp [travel]) (List.length_map ..)
  have hthree := assign_part (s.target ++ s.fields) hs.length_channel_le .channel
    (s.target.map (fun _ => .target) ++ travel s.fields) (travel s.channel)
    (s.caller.map fun _ => .caller) (by simp [travel]) (List.length_map ..)
  simp only [List.append_nil, List.nil_append, List.append_assoc] at hstart hone htwo hthree
  rw [Layout.ofParameters, roles, htarget, hcaller, hchannel, hstart]
  simp only [List.append_assoc]
  rw [hone, htwo, hthree, travel]

-- only the channel right before the caller chooses a channel, the other one travels
example :
    (Layout.ofParameters (.single .server) [.plain "from" .channel, .plain "by" .channel,
      ⟨"who", .connection, true, false⟩]).roles = [.serialized, .channel, .caller] := rfl

/-- Of one part of a list, all parameters travel or none does. -/
theorem serialized_part (part : List Parameter) (role : Role) (k : Nat) :
    (((part.map fun _ => role).zipIdx k).filter (·.1 == .serialized)).map (·.2) =
      if role = .serialized then List.range' k part.length else [] := by
  induction part generalizing k with
  | nil => simp
  | cons x rest ih =>
    rw [List.map_cons, List.zipIdx_cons]
    by_cases hrole : role = .serialized
    · rw [List.filter_cons_of_pos (by simpa using hrole), List.map_cons, ih, if_pos hrole,
        if_pos hrole, List.length_cons, List.range'_succ]
    · rw [List.filter_cons_of_neg (by simpa using hrole), ih, if_neg hrole, if_neg hrole]

/-- The parameters that travel stand together. -/
theorem serialized_eq (s : Split) :
    (Layout.mk s.roles).serialized = List.range' s.target.length s.fields.length := by
  simp only [Layout.serialized, roles, List.zipIdx_append, List.filter_append, List.map_append,
    serialized_part, if_true]
  simp

/-- What travels of a split list are its fields. -/
theorem mem_fields_iff :
    (∃ i, (i, x) ∈ (Layout.mk s.roles).fields s.parameters) ↔ x ∈ s.fields := by
  have hat : ∀ j < s.fields.length, s.parameters[s.target.length + j]? = s.fields[j]? := by
    intro j hj
    rw [parameters, List.append_assoc, List.append_assoc, List.getElem?_append_right (by omega),
      Nat.add_sub_cancel_left, List.getElem?_append_left hj]
  simp only [Layout.fields, serialized_eq, List.mem_filterMap, List.mem_range'_1,
    Option.map_eq_some_iff, Prod.mk.injEq]
  constructor
  · rintro ⟨_, k, ⟨hle, hlt⟩, y, hy, -, rfl⟩
    obtain ⟨j, rfl⟩ := Nat.exists_eq_add_of_le hle
    rw [hat j (by omega)] at hy
    exact List.mem_of_getElem? hy
  · intro hx
    obtain ⟨j, hj, hget⟩ := List.getElem_of_mem hx
    refine ⟨_, s.target.length + j, ⟨by omega, by omega⟩, x, ?_, rfl, rfl⟩
    rw [hat j hj, List.getElem?_eq_getElem hj, hget]

/-! ### The widest split -/

/-- A split of a list that fits, and that has a channel and a caller if any such split has. -/
structure Widest (s : Split) (ps : List Parameter) (kinds : List Kind) (codec : Codec) : Prop where
  parameters : s.parameters = ps
  fits : s.Fits kinds codec
  most : ∀ s' : Split, s'.parameters = ps → s'.Fits kinds codec →
    (s'.channel ≠ [] → s.channel ≠ []) ∧ (s'.caller ≠ [] → s.caller ≠ [])

variable {ps : List Parameter}

theorem Widest.unique (h : s.Widest ps kinds codec) (h' : s'.Widest ps kinds codec) : s' = s := by
  obtain ⟨hchannel, hcaller⟩ := h.most s' h'.parameters h'.fits
  obtain ⟨hchannel', hcaller'⟩ := h'.most s h.parameters h.fits
  exact h.fits.unique h'.fits.toShaped (h'.parameters.trans h.parameters.symm)
    (not_iff_not.mp ⟨hchannel, hchannel'⟩) (not_iff_not.mp ⟨hcaller, hcaller'⟩)

/-- A list that fits has a widest split, and the roles by position are its roles. -/
theorem Fits.exists_widest (h : s.Fits kinds codec) (hkinds : KindSet.ofKinds? kinds = some set) :
    ∃ s' : Split, s'.Widest s.parameters kinds codec ∧
      (Layout.ofParameters set s.parameters).roles = s'.roles := by
  obtain ⟨s', hs', htight, hsame, hfields⟩ := h.exists_tight
  refine ⟨s', ⟨hsame, ⟨hs', fun x hx => h.fields x (hfields hx)⟩, fun r hr hfits => ?_⟩, ?_⟩
  · exact htight.widest hs' hfits.toShaped (hr.trans hsame.symm)
  · rw [← hsame, htight.roles_eq hs' hkinds]

end Split

/-! ### Contracts -/

namespace Procedure

variable {p : Procedure} {codec : Codec} {c : Contract}

/-- The kinds that a procedure is annotated with, in order. -/
def remoteKinds (p : Procedure) : List Kind := p.annotations.map (·.kind)

/-- A procedure with an object, with code and with nothing open, that gives back nothing. -/
structure Ordinary (p : Procedure) : Prop where
  notStatic : p.modifiers.isStatic = false
  notAbstract : p.modifiers.isAbstract = false
  closed : p.generics = []
  silent : p.returns = .void

/-- A procedure that can be called remotely: its kinds may stand together, and its parameters
split. -/
structure Callable (p : Procedure) (codec : Codec) : Prop where
  kinds : (∃ k, p.remoteKinds = [k]) ∨ p.remoteKinds = [.observers, .target] ∨
    p.remoteKinds = [.target, .observers]
  ordinary : p.Ordinary
  splits : ∃ s : Split, s.parameters = p.parameters ∧ s.Fits p.remoteKinds codec

theorem fieldRejection?_eq_none_iff {x : Parameter} :
    p.fieldRejection? codec x = none ↔
      x.type.isGeneric = false ∧ codec.hasSerializer x.type = true := by
  unfold fieldRejection?
  cases x.type.isGeneric <;> cases codec.hasSerializer x.type <;> simp

/-- Every rule that a contract takes. -/
theorem contract?_eq_ok_some_iff :
    p.contract? codec = .ok (some c) ↔
      KindSet.ofKinds? p.remoteKinds = some c.kinds ∧ p.Ordinary ∧
      (c.kinds.contains .target = true → p.parameters.head?.any (·.type.isConnection) = true) ∧
      (∀ x ∈ (Layout.ofParameters c.kinds p.parameters).fields p.parameters,
        p.fieldRejection? codec x.2 = none) ∧
      c.annotations = p.annotations ∧ c.layout = .ofParameters c.kinds p.parameters := by
  rw [← List.findSome?_eq_none_iff]
  constructor
  · intro h
    have hkeeps := keeps_of_contract? h
    have hremote : ¬(!p.isRemote) = true := fun hnot => by
      rw [contract?_of_not_isRemote (by simpa using hnot)] at h
      cases h
    unfold contract? at h
    rw [if_neg hremote, hkeeps.kinds] at h
    simp only at h
    split at h
    · cases h
    split at h
    · cases h
    split at h
    · cases h
    split at h
    · cases h
    next hstatic hgeneric habstract hvoid =>
      refine ⟨hkeeps.kinds, ⟨by simpa using hstatic, by simpa using habstract,
        by simpa using hgeneric, by simpa [TypeRef.isVoid] using hvoid⟩, hkeeps.target, ?_,
        hkeeps.annotations, hkeeps.layout⟩
      split at h
      · cases h
      · split at h
        · cases h
        next hfields => exact hfields
  · rintro ⟨hkinds, hordinary, htarget, hfields, hannotations, hlayout⟩
    obtain ⟨kinds, annotations, layout⟩ := c
    obtain rfl : annotations = p.annotations := hannotations
    obtain rfl : layout = .ofParameters kinds p.parameters := hlayout
    have hremote : ¬(!p.isRemote) = true := by
      intro hnot
      have hnone : p.remoteKinds = [] := by
        simpa [isRemote, remoteKinds] using hnot
      rw [hnone] at hkinds
      cases hkinds
    have hfront : ¬(kinds.contains .target &&
        !(p.parameters.head?.any (·.type.isConnection))) = true := by
      rw [Bool.and_eq_true]
      rintro ⟨hkind, hnot⟩
      rw [htarget hkind] at hnot
      cases hnot
    unfold contract?
    rw [if_neg hremote, show KindSet.ofKinds? (p.annotations.map (·.kind)) = some kinds from hkinds]
    simp only [hordinary.notStatic, hordinary.notAbstract, hordinary.closed, hordinary.silent,
      if_neg hfront]
    simp [TypeRef.isVoid, hfields]

/-- The kinds of what can be called remotely make up a set. -/
theorem Callable.exists_set (h : p.Callable codec) :
    ∃ set, KindSet.ofKinds? p.remoteKinds = some set := by
  rcases h.kinds with ⟨k, hk⟩ | hk
  · exact ⟨_, KindSet.ofKinds?_eq_some_iff.mpr (.inl ⟨k, hk, rfl⟩)⟩
  · exact ⟨_, KindSet.ofKinds?_eq_some_iff.mpr (.inr ⟨hk, rfl⟩)⟩

/-- What can be called remotely has a contract, with the roles of the widest split. -/
theorem Callable.contract? (h : p.Callable codec) :
    ∃ c, ∃ s : Split, p.contract? codec = .ok (some c) ∧ s.Widest p.parameters p.remoteKinds codec ∧
      c.layout.roles = s.roles := by
  obtain ⟨set, hset⟩ := h.exists_set
  obtain ⟨s, hs, hfits⟩ := h.splits
  obtain ⟨w, hwidest, hroles⟩ := hfits.exists_widest hset
  rw [hs] at hwidest hroles
  refine ⟨⟨set, p.annotations, .ofParameters set p.parameters⟩, w,
    contract?_eq_ok_some_iff.mpr ⟨hset, h.ordinary, fun hkind => ?_, fun x hx => ?_, rfl, rfl⟩,
    hwidest, hroles⟩
  · have htarget := hwidest.fits.target
    rw [if_pos ((KindSet.contains_iff hset .target).mp hkind)] at htarget
    obtain ⟨x, hx, htype⟩ := htarget
    rw [← hwidest.parameters]
    simp [Split.parameters, hx, htype, TypeRef.isConnection]
  · have hmem : x.2 ∈ w.fields := by
      rw [← Split.mem_fields_iff, hwidest.parameters, ← hroles]
      exact ⟨x.1, hx⟩
    exact fieldRejection?_eq_none_iff.mpr (hwidest.fits.fields x.2 hmem)

/-- What has a contract can be called remotely. -/
theorem callable_of_contract? (h : p.contract? codec = .ok (some c)) : p.Callable codec := by
  obtain ⟨hkinds, hordinary, htarget, hfields, -, -⟩ := contract?_eq_ok_some_iff.mp h
  refine ⟨?_, hordinary, ?_⟩
  · rcases KindSet.ofKinds?_eq_some_iff.mp hkinds with ⟨k, hk, -⟩ | ⟨hk, -⟩
    · exact .inl ⟨k, hk⟩
    · exact .inr hk
  · -- all that is not the target can be read as fields, and then as a tight split
    obtain ⟨r, hr, hshaped⟩ : ∃ r : Split, r.parameters = p.parameters ∧
        r.Shaped p.remoteKinds := by
      by_cases hkind : .target ∈ p.remoteKinds
      · have hfront := htarget ((KindSet.contains_iff hkinds .target).mpr hkind)
        obtain ⟨x, rest, hps, hx⟩ : ∃ x rest, p.parameters = x :: rest ∧ x.type = .connection := by
          cases hps : p.parameters with
          | nil => simp [hps] at hfront
          | cons x rest => exact ⟨x, rest, rfl, by simpa [hps, TypeRef.isConnection] using hfront⟩
        exact ⟨⟨[x], rest, [], []⟩, by simp [Split.parameters, hps],
          ⟨by simp [hkind, hx], .inl rfl, .inl rfl⟩⟩
      · exact ⟨⟨[], p.parameters, [], []⟩, by simp [Split.parameters],
          ⟨by simp [hkind], .inl rfl, .inl rfl⟩⟩
    obtain ⟨s, hs, htight, hsame, -⟩ := hshaped.exists_tight
    rw [hr] at hsame
    refine ⟨s, hsame, hs, fun x hx => (fieldRejection?_eq_none_iff (p := p)).mp ?_⟩
    obtain ⟨i, hi⟩ := Split.mem_fields_iff.mpr hx
    rw [← htight.roles_eq hs hkinds, hsame] at hi
    exact hfields (i, x) hi

/-- A procedure is left alone exactly if it has no annotations, and accepted exactly if it can be
called remotely.  The contract then gives the roles of the widest split, whose fields stand
together; and everything else is refused. -/
theorem contract_grammar (p : Procedure) (codec : Codec) :
    (p.contract? codec = .ok none ↔ p.remoteKinds = []) ∧
    ((∃ c, p.contract? codec = .ok (some c)) ↔ p.Callable codec) ∧
    (∀ c, p.contract? codec = .ok (some c) ↔
      p.Callable codec ∧ KindSet.ofKinds? p.remoteKinds = some c.kinds ∧
      c.annotations = p.annotations ∧
      ∃ s : Split, s.Widest p.parameters p.remoteKinds codec ∧
        (∀ s' : Split, s'.Widest p.parameters p.remoteKinds codec → s' = s) ∧
        c.layout.roles = s.roles ∧
        c.layout.serialized = List.range' s.target.length s.fields.length) ∧
    ((∃ r, p.contract? codec = .error r) ↔ p.remoteKinds ≠ [] ∧ ¬ p.Callable codec) := by
  have hnone : p.contract? codec = .ok none ↔ p.remoteKinds = [] := by
    rw [remoteKinds, List.map_eq_nil_iff]
    constructor
    · intro h
      have hremote : p.isRemote ≠ true := fun hremote => contract?_ne_ok_none hremote codec h
      simpa [isRemote] using hremote
    · intro h
      exact contract?_of_not_isRemote (by simp [isRemote, h]) codec
  have hsome : (∃ c, p.contract? codec = .ok (some c)) ↔ p.Callable codec := by
    constructor
    · rintro ⟨c, h⟩
      exact callable_of_contract? h
    · intro h
      obtain ⟨c, -, hc, -⟩ := h.contract?
      exact ⟨c, hc⟩
  refine ⟨hnone, hsome, fun c => ⟨fun h => ?_, ?_⟩, ?_⟩
  · have hcallable := callable_of_contract? h
    obtain ⟨c', s, hc', hs, hroles⟩ := hcallable.contract?
    obtain rfl := Option.some.inj (Except.ok.inj (h.symm.trans hc'))
    obtain ⟨hkinds, -, -, -, hannotations, -⟩ := contract?_eq_ok_some_iff.mp h
    have hlayout : c.layout = ⟨s.roles⟩ := congrArg Layout.mk hroles
    exact ⟨hcallable, hkinds, hannotations, s, hs, fun s' hs' => hs.unique hs', hroles,
      by rw [hlayout, s.serialized_eq]⟩
  · rintro ⟨hcallable, hkinds, hannotations, s, -, hunique, hroles, -⟩
    obtain ⟨c', s', hc', hs', hroles'⟩ := hcallable.contract?
    obtain ⟨hkinds', -, -, -, hannotations', -⟩ := contract?_eq_ok_some_iff.mp hc'
    obtain rfl := hunique s' hs'
    obtain ⟨kinds, annotations, roles⟩ := c
    obtain ⟨kinds', annotations', roles'⟩ := c'
    obtain rfl : kinds = kinds' := Option.some.inj (hkinds.symm.trans hkinds')
    obtain rfl : annotations = annotations' := hannotations.trans hannotations'.symm
    obtain rfl : roles = roles' := congrArg Layout.mk (hroles.trans hroles'.symm)
    exact hc'
  · constructor
    · rintro ⟨r, hr⟩
      refine ⟨fun hnil => ?_, fun hcallable => ?_⟩
      · cases hr.symm.trans (hnone.mpr hnil)
      · obtain ⟨c, hc⟩ := hsome.mpr hcallable
        cases hr.symm.trans hc
    · rintro ⟨hne, hnot⟩
      rcases hp : p.contract? codec with r | _ | c
      · exact ⟨r, rfl⟩
      · exact absurd (hnone.mp hp) hne
      · exact absurd (hsome.mp ⟨c, hp⟩) hnot

end Procedure

end RpcLoom
