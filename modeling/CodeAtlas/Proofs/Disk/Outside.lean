import CodeAtlas.Proofs.Disk.Alike

/-!
# Changes at some places

A disk that is changed at some places looks the same at all others.  What is read from a path that does not lead to
one of them is what was read before.
-/

namespace CodeAtlas.Disk

variable {d d' d'' : Disk} {places places' : List String → Prop} {p p' : String} {q : List String}

/-- Two paths lead to the same place. -/
def SamePlace (d : Disk) (p p' : String) : Prop :=
  ∃ q t, d.locate p = .ok (.found q t) ∧ d.locate p' = .ok (.found q t)

theorem SamePlace.readBytes_eq_ok (h : d.SamePlace p p') {bytes : List UInt8} (hread : d.readBytes p' = .ok bytes) :
    d.readBytes p = .ok bytes := by
  obtain ⟨q, t, hlocate, hlocate'⟩ := h
  obtain ⟨q', content, time, hfile, rfl⟩ := Disk.readBytes_eq_ok.1 hread
  cases hlocate'.symm.trans hfile
  exact readBytes_of_locate hlocate

/-- Disks that look alike but at some places. -/
structure AlikeOutside (places : List String → Prop) (d d' : Disk) : Prop where
  here_eq : d'.here = d.here
  directory : ∀ q, (∃ es, d.root.get? q = some (.directory es)) ↔ ∃ es, d'.root.get? q = some (.directory es)
  like : ∀ front name, ¬places (front ++ [name]) →
    Tree.Like (d.root.get? (front ++ [name])) (d'.root.get? (front ++ [name]))

namespace AlikeOutside

theorem of_alike (h : ∀ changing, Alike changing d d') : AlikeOutside places d d' := by
  have hall := h fun _ => False
  exact ⟨hall.here_eq, hall.directory, fun front name _ => hall.like front name not_false⟩

theorem refl (places : List String → Prop) (d : Disk) : AlikeOutside places d d := of_alike fun _ => .refl _ d

theorem symm (h : AlikeOutside places d d') : AlikeOutside places d' d :=
  ⟨h.here_eq.symm, fun q => (h.directory q).symm, fun front name hname => (h.like front name hname).symm⟩

theorem trans (h : AlikeOutside places d d') (h' : AlikeOutside places d' d'') : AlikeOutside places d d'' :=
  ⟨h'.here_eq.trans h.here_eq, fun q => (h.directory q).trans (h'.directory q),
    fun front name hname => (h.like front name hname).trans (h'.like front name hname)⟩

theorem mono (h : AlikeOutside places d d') (hplaces : ∀ q, places q → places' q) : AlikeOutside places' d d' :=
  ⟨h.here_eq, h.directory, fun front name hname => h.like front name fun hplace => hname (hplaces _ hplace)⟩

/-- A file that is written changes the place to which its path leads. -/
theorem of_write {content : Content} {time : Int} (h : d.writeContent p content time = .ok d') :
    AlikeOutside (fun q => ∃ t, d'.locate p = .ok (.found q t)) d d' := by
  obtain ⟨hhere, q, hlocate, hkept, hback⟩ := writeContent_kept h
  refine ⟨hhere, fun q' => ⟨?_, ?_⟩, fun front name hname => ?_⟩
  · rintro ⟨es, hes⟩
    exact hkept.directory q' es hes
  · rintro ⟨es, hes⟩
    exact hback.directory q' es hes
  · refine Tree.like_of_kept hkept hback ?_
    rintro rfl
    exact hname ⟨_, hlocate⟩

theorem locate_of_get? (h : AlikeOutside places d d') {t t' : Tree} (hlocate : d.locate p = .ok (.found q t))
    (hget : d'.root.get? q = some t') : d'.locate p = .ok (.found q t') :=
  locate_of_directories h.here_eq (fun q es hq => (h.directory q).1 ⟨es, hq⟩) hlocate hget

/-- A file at another place holds the same bytes. -/
theorem exists_file (h : AlikeOutside places d d') {content : Content} {time : Int}
    (hlocate : d.locate p = .ok (.found q (.file content time))) (hq : ¬places q) :
    ∃ content' time', d'.locate p = .ok (.found q (.file content' time')) ∧ content'.toBytes = content.toBytes := by
  obtain ⟨start, -, hleads⟩ := locate_eq_ok.1 hlocate
  obtain ⟨front, rfl⟩ := (baseName_of_locate hlocate).2
  have hlike := h.like front _ hq
  rw [hleads.get?_found] at hlike
  cases hget : d'.root.get? (front ++ [Path.baseName p]) with
  | none =>
    rw [hget] at hlike
    cases content <;> exact absurd hlike (by simp [Tree.Like])
  | some t =>
    rw [hget] at hlike
    cases t with
    | directory es => cases content <;> exact absurd hlike (by simp [Tree.Like])
    | file content' time' =>
      refine ⟨content', time', h.locate_of_get? hlocate hget, ?_⟩
      cases content <;> cases content' <;> simp_all [Tree.Like, Content.toBytes]

/-- What is read from a path that leads to none of the places is what was read before. -/
theorem readBytes_eq_ok (h : AlikeOutside places d d') (hthere : ∀ q, places q → ∃ t, d'.root.get? q = some t)
    (hout : ∀ q t, d'.locate p = .ok (.found q t) → ¬places q) {bytes : List UInt8} :
    d'.readBytes p = .ok bytes ↔ d.readBytes p = .ok bytes := by
  constructor
  · intro hread
    obtain ⟨q, content, time, hlocate, rfl⟩ := Disk.readBytes_eq_ok.1 hread
    obtain ⟨content', time', hlocate', heq⟩ := h.symm.exists_file hlocate (hout q _ hlocate)
    rw [readBytes_of_locate hlocate', heq]
  · intro hread
    obtain ⟨q, content, time, hlocate, rfl⟩ := Disk.readBytes_eq_ok.1 hread
    have hq : ¬places q := by
      intro hplace
      -- the path would still lead there
      obtain ⟨t, ht⟩ := hthere q hplace
      exact hout q t (h.locate_of_get? hlocate ht) hplace
    obtain ⟨content', time', hlocate', heq⟩ := h.exists_file hlocate hq
    rw [readBytes_of_locate hlocate', heq]

end AlikeOutside

end CodeAtlas.Disk
