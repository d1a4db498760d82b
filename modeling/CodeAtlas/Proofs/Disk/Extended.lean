import CodeAtlas.Proofs.Disk.Alike
import CodeAtlas.Proofs.Disk.Below
import CodeAtlas.Proofs.Disk.Names

/-!
# Disks with more on them

Making directories and writing files takes nothing away: a directory stays a directory and a file stays a file, though
it may hold something else.  The names that come in are names that entries can have.
-/

namespace CodeAtlas

namespace Tree

variable {t u : Tree} {es : List (String × Tree)} {name : String}

theorem mem_putEntry {e : String × Tree} (h : e ∈ putEntry name t es) : e = (name, t) ∨ e ∈ es := by
  induction es with
  | nil => simpa [putEntry] using h
  | cons first es ih =>
    obtain ⟨n, v⟩ := first
    rw [putEntry] at h
    split at h
    · next hn =>
      rcases List.mem_cons.1 h with rfl | hlater
      · left
        rw [beq_iff_eq.1 hn]
      · exact Or.inr (List.mem_cons_of_mem _ hlater)
    · rcases List.mem_cons.1 h with rfl | hlater
      · exact Or.inr List.mem_cons_self
      · rcases ih hlater with heq | hmem
        · exact Or.inl heq
        · exact Or.inr (List.mem_cons_of_mem _ hmem)

theorem nodup_putEntry (h : (es.map Prod.fst).Nodup) : ((putEntry name t es).map Prod.fst).Nodup := by
  induction es with
  | nil => simp [putEntry]
  | cons first es ih =>
    obtain ⟨n, v⟩ := first
    rw [List.map_cons, List.nodup_cons] at h
    rw [putEntry]
    split
    · exact List.nodup_cons.2 h
    · next hn =>
      refine List.nodup_cons.2 ⟨fun hmem => ?_, ih h.2⟩
      obtain ⟨e, he, heq⟩ := List.mem_map.1 hmem
      rcases mem_putEntry he with rfl | hold
      · exact hn (beq_iff_eq.2 heq.symm)
      · exact h.1 (List.mem_map.2 ⟨e, hold, heq⟩)

theorem wellNamed_empty : empty.WellNamed := .directory (by simp) (by simp) (by simp)

/-- What is put under names that entries can have leaves a tree as it can be on a disk. -/
theorem WellNamed.put {names : List String} (hu : u.WellNamed) (ht : t.WellNamed)
    (hnames : ∀ c ∈ names, Disk.IsEntryName c) :
    (put names t u).WellNamed := by
  induction names generalizing u with
  | nil => exact ht
  | cons name rest ih =>
    have hchild : ((u.child? name).getD empty).WellNamed := by
      cases hget : u.child? name with
      | none => exact wellNamed_empty
      | some v =>
        have hv : u.get? [name] = some v := by rw [get?_cons, hget]; simp
        exact (hu.of_get? hv).1
    have hinner := ih hchild fun c hc => hnames c (List.mem_cons_of_mem _ hc)
    have hentries : (u.entries.map Prod.fst).Nodup ∧ ∀ e ∈ u.entries, Disk.IsEntryName e.1 ∧ e.2.WellNamed := by
      cases hu with
      | file => simp [entries]
      | directory hnodup hold hbelow => exact ⟨hnodup, fun e he => ⟨hold e he, hbelow e he⟩⟩
    refine .directory (nodup_putEntry hentries.1) (fun e he => ?_) fun e he => ?_
    · rcases mem_putEntry he with rfl | hold
      · exact hnames name List.mem_cons_self
      · exact (hentries.2 e hold).1
    · rcases mem_putEntry he with rfl | hold
      · exact hinner
      · exact (hentries.2 e hold).2

end Tree

namespace Disk

open CodeAtlas.Path (IsName)

variable {d d' d'' : Disk} {p : String} {q : List String}

/-- A disk with more on it: directories stay directories, and files stay files, though they may hold something else. -/
structure Extended (d d' : Disk) : Prop where
  here_eq : d'.here = d.here
  directory : ∀ q es, d.root.get? q = some (.directory es) → ∃ es', d'.root.get? q = some (.directory es')
  file : ∀ q c m, d.root.get? q = some (.file c m) → ∃ c' m', d'.root.get? q = some (.file c' m')
  wellNamed : d.root.WellNamed → d'.root.WellNamed

namespace Extended

theorem refl (d : Disk) : Extended d d := ⟨rfl, fun _ es h => ⟨es, h⟩, fun _ c m h => ⟨c, m, h⟩, id⟩

theorem trans (h : Extended d d') (h' : Extended d' d'') : Extended d d'' where
  here_eq := h'.here_eq.trans h.here_eq
  directory q es hq := by
    obtain ⟨es', hq'⟩ := h.directory q es hq
    exact h'.directory q es' hq'
  file q c m hq := by
    obtain ⟨c', m', hq'⟩ := h.file q c m hq
    exact h'.file q c' m' hq'
  wellNamed hd := h'.wellNamed (h.wellNamed hd)

theorem isFile (h : Extended d d') (hp : d.isFile p = true) : d'.isFile p = true := by
  obtain ⟨q, c, m, hlocate⟩ := isFile_iff.1 hp
  obtain ⟨start, -, hleads⟩ := locate_eq_ok.1 hlocate
  obtain ⟨c', m', hq⟩ := h.file q c m hleads.get?_found
  exact isFile_iff.2 ⟨q, c', m', locate_of_directories h.here_eq h.directory hlocate hq⟩

theorem isDirectory (h : Extended d d') (hp : d.isDirectory p = true) : d'.isDirectory p = true := by
  obtain ⟨q, es, hlocate⟩ := isDirectory_iff_locate.1 hp
  obtain ⟨start, -, hleads⟩ := locate_eq_ok.1 hlocate
  obtain ⟨es', hq⟩ := h.directory q es hleads.get?_found
  exact isDirectory_iff_locate.2 ⟨q, es', locate_of_directories h.here_eq h.directory hlocate hq⟩

end Extended

/-! ### Names that come in -/

/-- What is missing where steps end has a name, and there is a directory for it. -/
theorem Leads.absent_spec {tree : Tree} {path cs parent : List String} {name : String}
    (h : Leads tree path cs (.absent parent name)) :
    IsName name ∧ name.utf8ByteSize ≤ maxName ∧ ∃ es, tree.get? parent = some (.directory es) := by
  generalize hplace : Place.absent parent name = place at h
  induction h with
  | arrive => cases hplace
  | stay _ _ _ ih => exact ih hplace
  | up _ _ ih => exact ih hplace
  | down _ _ _ _ ih => exact ih hplace
  | @stop _ _ _ es hget hc hsize _ _ =>
    cases hplace
    exact ⟨hc, hsize, es, hget⟩

theorem not_null_of_mem_steps {c : String} (hp : '\x00' ∉ p.toList) (hc : c ∈ steps p) : '\x00' ∉ c.toList := by
  have hcomponent : ∀ c ∈ Path.components p, '\x00' ∉ c.toList := fun c hc hmem =>
    hp (Text.mem_of_mem_fields (List.mem_of_mem_filter hc) hmem)
  rw [steps] at hc
  split at hc
  · rcases List.mem_append.1 hc with hc | hc
    · exact hcomponent c hc
    · rw [List.mem_singleton.1 hc]
      decide
  · exact hcomponent c hc

/-- The place where a path leads to has names that entries can have. -/
theorem isEntryName_of_locate (hd : d.root.WellNamed) {place : Place} (h : d.locate p = .ok place) :
    ∀ c ∈ place.names, IsEntryName c := by
  obtain ⟨start, hstart, hleads⟩ := locate_eq_ok.1 h
  cases place with
  | found q t => exact (hd.of_get? hleads.get?_found).2
  | absent parent name =>
    have hmem := hleads.mem_of_absent
    obtain ⟨hname, hsize, es, hparent⟩ := hleads.absent_spec
    intro c hc
    rcases List.mem_append.1 hc with hc | hc
    · exact (hd.of_get? hparent).2 c hc
    · obtain rfl := List.mem_singleton.1 hc
      exact ⟨hname, not_mem_of_mem_steps hmem, not_null_of_mem_steps (start?_eq_some.1 hstart).1.2.1 hmem, hsize⟩

namespace Extended

theorem writeContent {content : Content} {time : Int} (h : d.writeContent p content time = .ok d') : Extended d d' := by
  obtain ⟨hhere, q, hlocate, hkept⟩ := writeContent_spec h
  obtain ⟨start, -, hleads⟩ := locate_eq_ok.1 hlocate
  refine ⟨hhere, hkept.directory, fun q' c m hq' => ?_, fun hd => ?_⟩
  · by_cases heq : q' = q
    · subst heq
      exact ⟨content, time, hleads.get?_found⟩
    · exact ⟨c, m, (hkept.file q' heq c m).2 hq'⟩
  · obtain ⟨place, hplace, -, rfl⟩ := (writeContent_of_not_slashed fun hslash => writeContent_of_slashed hslash h).1 h
    exact hd.put (.file content time) (isEntryName_of_locate hd hplace)

theorem makeDirectory (h : d.makeDirectory p = .ok d') : Extended d d' := by
  obtain ⟨hhere, hkept⟩ := makeDirectory_spec h
  refine ⟨hhere, hkept.directory, fun q c m hq => ⟨c, m, (hkept.file q trivial c m).2 hq⟩, fun hd => ?_⟩
  rw [Disk.makeDirectory] at h
  obtain ⟨place, hlocate, hplace⟩ := exists_of_bind_eq_ok h
  cases place with
  | found => cases hplace
  | absent parent name =>
    cases hplace
    exact hd.put Tree.wellNamed_empty (isEntryName_of_locate hd hlocate)

theorem makeDirectories (h : d.makeDirectories p = .ok d') : Extended d d' := by
  rw [← eq_withDirectories h]
  exact withDirectories_induction refl trans makeDirectory d p

end Extended

end Disk

end CodeAtlas
