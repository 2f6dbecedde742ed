/-
RpcLoom/Proofs/Following.lean

Following all links, once and again.

Design.  Links of different logic do not disturb each other: once a link is
settled it stays settled while others are followed.  So after following a list
of links every one of them is settled (`followAll_settles`), and following the
list again fails where it failed before and changes nothing (`followAll_again`).
Any links at all, ready or not, keep the faces of all types.
-/
import RpcLoom.Proofs.Linking

namespace RpcLoom

namespace LogicLink

variable {link other : LogicLink} {a b : Assembly} {failure : Option LinkError}

/-- A settled link stays settled where its own logic stays. -/
theorem SettledIn.keep (h : link.SettledIn a failure) (hr : a.Relinked b)
    (hcode : ∀ i, a.find? link.typeName = some i →
      procedureAt b i link.logic = procedureAt a i link.logic) : link.SettledIn b failure := by
  obtain ⟨i, above, t, p, hready, hs⟩ := h
  obtain ⟨u, q, hready', -, -⟩ := hready.relinked hr
  have hsame := hcode i hready.find
  rw [hready.procedureAt, hready'.procedureAt] at hsame
  exact ⟨i, above, u, q, hready', hs.congr hr.bare (congrArg Procedure.body
    (Option.some.inj hsame))⟩

/-- Links of different logic, all of them ready. -/
structure AllReady (links : List LogicLink) (a : Assembly) : Prop where
  ready : ∀ link ∈ links, ∃ i above t p, link.Ready a i above t p
  differ : links.Pairwise fun x y => ¬ x.SameLogic y

/-- Following links of different logic settles all of them, and changes no other code. -/
theorem followAll_settles {links : List LogicLink} {w : Weaving}
    (h : AllReady links w.assembly) :
    ∃ failures b, w.followAll links =
        ({ w with assembly := b, log := w.log ++ failures.flatMap said },
          failures.flatMap (·.toList)) ∧
      w.assembly.Relinked b ∧
      List.Forall₂ (fun link failure => link.SettledIn b failure) links failures ∧
      ∀ k l, (∀ link ∈ links, ¬ (w.assembly.find? link.typeName = some k ∧ link.logic = l)) →
        procedureAt b k l = procedureAt w.assembly k l := by
  induction links generalizing w with
  | nil =>
    refine ⟨[], w.assembly, ?_, .refl _, .nil, fun _ _ _ => rfl⟩
    simp [Weaving.followAll]
  | cons link rest ih =>
    obtain ⟨hdiffer, hrest⟩ := List.pairwise_cons.mp h.differ
    obtain ⟨i, above, t, p, hready⟩ := h.ready link (by simp)
    obtain ⟨failure, b, hfollow, hrelink, hsettled, hcode⟩ := hready.follow
    have hfind : ∀ name, b.find? name = w.assembly.find? name := fun name =>
      Assembly.find?_congr (Assembly.faces_of_bare_eq hrelink.bare) name
    obtain ⟨failures, c, hall, hrelink', hsettled', hcode'⟩ :=
      ih (w := { w with assembly := b, log := w.log ++ said failure })
        ⟨fun link' hl => by
          obtain ⟨i', above', t', p', hready'⟩ := h.ready link' (by simp [hl])
          obtain ⟨u, q, hu, -, -⟩ := hready'.relinked hrelink
          exact ⟨i', above', u, q, hu⟩, hrest⟩
    refine ⟨failure :: failures, c, ?_, hrelink.trans hrelink', .cons ?_ hsettled',
      fun k l hkl => ?_⟩
    · rw [Weaving.followAll, hfollow]
      simp only [hall, List.flatMap_cons, List.append_assoc]
    · -- the others have logic of their own, so this link stays settled
      refine hsettled.keep hrelink' fun k hk => hcode' k link.logic fun link' hl hsame => ?_
      obtain ⟨_, _, _, _, hready'⟩ := h.ready link' (by simp [hl])
      refine hdiffer link' hl ⟨?_, hsame.2.symm⟩
      obtain ⟨t₁, ht₁⟩ : ∃ t₁, b.type? k = some t₁ := by
        obtain ⟨hi, -, -⟩ := List.findIdx?_eq_some_iff_getElem.mp hk
        exact ⟨_, List.getElem?_eq_getElem hi⟩
      rw [← name_of_find? hk ht₁, name_of_find? hsame.1 ht₁]
    · rw [hcode' k l fun link' hl hsame => hkl link' (by simp [hl]) ⟨hfind _ ▸ hsame.1, hsame.2⟩]
      exact hcode k l fun hsame =>
        hkl link (by simp) ⟨by rw [hready.find, hsame.1], hsame.2.symm⟩

/-- Following settled links fails where it failed before and changes nothing. -/
theorem followAll_again {links : List LogicLink} {failures : List (Option LinkError)}
    {w : Weaving}
    (h : List.Forall₂ (fun link failure => link.SettledIn w.assembly failure) links failures) :
    w.followAll links =
      ({ w with log := w.log ++ failures.flatMap said }, failures.flatMap (·.toList)) := by
  induction links generalizing w failures with
  | nil =>
    cases h
    simp [Weaving.followAll]
  | cons link rest ih =>
    cases h with
    | @cons _ failure _ failures hfirst hrest =>
      obtain ⟨i, above, t, p, hready, hs⟩ := hfirst
      rw [Weaving.followAll, hs.follow hready]
      simp only [ih (w := { w with log := w.log ++ said failure }) hrest, List.flatMap_cons,
        List.append_assoc]

/-- If following links leads to no failure, each one is settled without. -/
theorem settledIn_of_unfailing {links : List LogicLink} {failures : List (Option LinkError)}
    (h : List.Forall₂ (fun link failure => link.SettledIn a failure) links failures)
    (hnone : failures.flatMap (·.toList) = []) (hlink : link ∈ links) :
    link.SettledIn a none := by
  induction h with
  | nil => cases hlink
  | @cons _ failure _ _ hfirst _ ih =>
    rw [List.flatMap_cons, List.append_eq_nil_iff, Option.toList_eq_nil_iff] at hnone
    obtain ⟨rfl, hrest⟩ := hnone
    rcases List.mem_cons.mp hlink with rfl | hlink
    · exact hfirst
    · exact ih hrest hlink

/-! ### Any links -/

/-- Following a link leads on the base calls of its logic, or changes nothing. -/
theorem redirect_cases {n : Nat} (h : link.redirect a = .ok (b, n)) :
    b = a ∨ ∃ i t p body names ref, a.type? i = some t ∧ t.procedure? link.logic = some p ∧
      p.body = some body ∧
      b = a.set i (t.fill link.logic ((body.mapNestedM (link.retarget names ref)).run 0).1) := by
  unfold redirect at h
  cases hi : a.find? link.typeName with
  | none => simp [Assembly.find, hi, Except.mapError, bind, Except.bind] at h
  | some i =>
    cases hab : a.ancestors i with
    | error e => simp [Assembly.find, hi, hab, Except.mapError, bind, Except.bind] at h
    | ok above =>
      cases ht : a.type? i with
      | none => simp [Assembly.find, hi, hab, Assembly.type, ht, Except.mapError, bind,
          Except.bind] at h
      | some t =>
        simp only [Assembly.find, hi, hab, Assembly.type, ht, Except.mapError, bind,
          Except.bind, TypeDef.procedure] at h
        cases hl : t.procedure? link.logic with
        | none => simp [hl] at h
        | some p =>
          simp only [hl] at h
          cases hb : p.body with
          | none =>
            simp only [hb, Except.ok.injEq, Prod.mk.injEq] at h
            exact .inl h.1.symm
          | some body =>
            simp only [hb] at h
            split at h
            · exact .inl (Prod.mk.inj (Except.ok.inj h)).1.symm
            · rcases hf : a.findInBase? i ⟨p.name, link.served.types⟩ with e | _ | ref
              · simp [hf] at h
              · simp [hf] at h
              · simp only [hf] at h
                exact .inr ⟨i, t, p, body, _, ref, ht, hl, hb,
                  (Prod.mk.inj (Except.ok.inj h)).1.symm⟩

theorem faces_redirect {n : Nat} (h : link.redirect a = .ok (b, n)) : b.faces = a.faces := by
  rcases redirect_cases h with rfl | ⟨i, t, -, body, names, ref, ht, -, -, rfl⟩
  · rfl
  · exact Assembly.faces_set ht (TypeDef.face_eq_iff.mpr ⟨rfl, rfl, Job.outline_fill ..⟩)

/-- Following links keeps no link. -/
theorem links_followAll (links : List LogicLink) (w : Weaving) :
    (w.followAll links).1.links = w.links := by
  induction links generalizing w with
  | nil => rfl
  | cons link rest ih =>
    have hfirst : (w.follow link).1.links = w.links := by
      unfold Weaving.follow
      cases link.redirect w.assembly with
      | error e => rfl
      | ok r => rfl
    exact (ih (w.follow link).1).trans hfirst

/-- Following links changes no table and keeps every face. -/
theorem faces_followAll (links : List LogicLink) (w : Weaving) :
    (w.followAll links).1.assembly.faces = w.assembly.faces ∧
      (w.followAll links).1.tables = w.tables := by
  induction links generalizing w with
  | nil => exact ⟨rfl, rfl⟩
  | cons link rest ih =>
    have hfirst : (w.follow link).1.assembly.faces = w.assembly.faces ∧
        (w.follow link).1.tables = w.tables := by
      unfold Weaving.follow
      cases h : link.redirect w.assembly with
      | error e => exact ⟨rfl, rfl⟩
      | ok r => exact ⟨faces_redirect (n := r.2) h, rfl⟩
    obtain ⟨h₁, h₂⟩ := ih (w.follow link).1
    exact ⟨h₁.trans hfirst.1, h₂.trans hfirst.2⟩

end LogicLink

end RpcLoom
