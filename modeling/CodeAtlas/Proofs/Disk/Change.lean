import CodeAtlas.Disk.Change
import CodeAtlas.Proofs.Disk.Locate

/-!
# What changes leave behind

A file that was written is found under the path by which it was written, and all other files are as they
were.  Making directories changes no file at all.
-/

namespace CodeAtlas.Disk

variable {d d' : Disk} {p : String} {content : Content} {time : Int} {q : List String}

theorem readContent_of_locate (h : d.locate p = .ok (.found q (.file content time))) :
    d.readContent p = .ok content := by
  rw [readContent, look_eq_ok.2 h]
  rfl

theorem readBytes_of_locate (h : d.locate p = .ok (.found q (.file content time))) :
    d.readBytes p = .ok content.toBytes := by
  rw [readBytes, readContent_of_locate h]
  rfl

/-- Bytes are read from files only. -/
theorem readBytes_eq_ok {bytes : List UInt8} :
    d.readBytes p = .ok bytes ↔
      ∃ q content time, d.locate p = .ok (.found q (.file content time)) ∧ content.toBytes = bytes := by
  constructor
  · intro h
    rw [readBytes, readContent] at h
    cases hlook : d.look p with
    | error e =>
      rw [hlook] at h
      cases h
    | ok found =>
      obtain ⟨q, t⟩ := found
      rw [hlook] at h
      cases t with
      | directory es => cases h
      | file content time =>
        cases h
        exact ⟨q, content, time, look_eq_ok.1 hlook, rfl⟩
  · rintro ⟨q, content, time, hlocate, rfl⟩
    exact readBytes_of_locate hlocate

theorem isFile_of_readBytes {bytes : List UInt8} (h : d.readBytes p = .ok bytes) : d.isFile p = true := by
  obtain ⟨q, content, time, hlocate, -⟩ := readBytes_eq_ok.1 h
  exact isFile_iff.2 ⟨q, content, time, hlocate⟩

theorem modifiedSeconds_of_locate (h : d.locate p = .ok (.found q (.file content time))) :
    d.modifiedSeconds p = .ok (secondsOf time) := by
  have hmodified : d.modified p = .ok time := by
    rw [modified, look_eq_ok.2 h]
    rfl
  rw [modifiedSeconds, hmodified]

theorem exists_of_bind_eq_ok {α β : Type} {x : Except Error α} {f : α → Except Error β} {b : β}
    (h : x >>= f = .ok b) : ∃ a, x = .ok a ∧ f a = .ok b := by
  cases x with
  | error e => cases h
  | ok a => exact ⟨a, rfl, h⟩

/-- Nothing is written under a path that ends with a slash. -/
theorem writeContent_of_slashed (h : p.toList.getLast? = some '/') :
    d.writeContent p content time ≠ .ok d' := by
  intro hok
  rw [writeContent, h] at hok
  -- wherever the path leads to, the last step fails
  split at hok
  on_goal 1 => split at hok
  all_goals
    obtain ⟨place, -, hplace⟩ := exists_of_bind_eq_ok hok
    cases place with
    | absent => cases hplace
    | found _ t => cases t <;> cases hplace

/-- A file is written where its path leads to, unless there is a directory. -/
theorem writeContent_of_not_slashed (h : p.toList.getLast? ≠ some '/') :
    d.writeContent p content time = .ok d' ↔
      ∃ place, d.locate p = .ok place ∧ (∀ q es, place ≠ .found q (.directory es)) ∧
        d' = d.putAt place.names (.file content time) := by
  have hslash : (p.toList.getLast? == some '/') = false := by simpa using h
  rw [writeContent, hslash]
  cases d.locate p with
  | error e => simp [bind, Except.bind]
  | ok place =>
    cases place with
    | absent parent name => simp [bind, Except.bind, Place.names, eq_comm]
    | found path t => cases t <;> simp [bind, Except.bind, Place.names, eq_comm]

/-- What writing a file leaves behind: the file where its path leads to, and all other files as they were. -/
theorem writeContent_spec (h : d.writeContent p content time = .ok d') :
    d'.here = d.here ∧ ∃ q, d'.locate p = .ok (.found q (.file content time)) ∧
      Tree.Kept (· ≠ q) d.root d'.root := by
  have hslash : p.toList.getLast? ≠ some '/' := fun hslash => writeContent_of_slashed hslash h
  obtain ⟨place, hlocate, hplace, rfl⟩ := (writeContent_of_not_slashed hslash).1 h
  obtain ⟨start, hstart, hleads⟩ := locate_eq_ok.1 hlocate
  have hsteps : "" ∉ steps p := by
    rw [steps_of_not_slashed hslash]
    exact not_mem_components p
  refine ⟨rfl, place.names, locate_eq_ok.2 ⟨start, hstart, hleads.put hplace hsteps content time⟩, ?_⟩
  exact (hleads.vacant hplace).kept_put fun rest hrest => Tree.get?_file_of_ne_nil content time hrest

/-- A file that is there can be written. -/
theorem writeContent_of_file {c : Content} {m : Int} (h : d.locate p = .ok (.found q (.file c m))) :
    d.writeContent p content time = .ok (d.putAt q (.file content time)) :=
  (writeContent_of_not_slashed (not_slashed_of_locate h)).2 ⟨_, h, by simp, rfl⟩

/-- Directories are there still, all files are as they were, and there are no others. -/
structure Grown (d d' : Disk) : Prop where
  here_eq : d'.here = d.here
  kept : Tree.Kept (fun _ => True) d.root d'.root

theorem Grown.refl (d : Disk) : Grown d d := ⟨rfl, .refl _ _⟩

theorem Grown.trans {d₁ d₂ d₃ : Disk} (h₁ : Grown d₁ d₂) (h₂ : Grown d₂ d₃) : Grown d₁ d₃ :=
  ⟨h₂.here_eq.trans h₁.here_eq, h₁.kept.trans h₂.kept⟩

/-- A new directory changes no file. -/
theorem makeDirectory_spec (h : d.makeDirectory p = .ok d') : Grown d d' := by
  rw [makeDirectory] at h
  obtain ⟨place, hlocate, hplace⟩ := exists_of_bind_eq_ok h
  cases place with
  | found => cases hplace
  | absent parent name =>
    cases hplace
    obtain ⟨start, hstart, hleads⟩ := locate_eq_ok.1 hlocate
    have hnone : d.root.get? (parent ++ [name]) = none := hleads.get?_absent
    have hkept : Tree.Kept (· ≠ parent ++ [name]) d.root (Tree.put (parent ++ [name]) .empty d.root) :=
      (hleads.vacant (by simp)).kept_put fun rest hrest => Tree.get?_empty_of_ne_nil hrest
    refine ⟨rfl, hkept.directory, fun place _ c m => ?_⟩
    by_cases hnames : place = parent ++ [name]
    · have hempty : (Tree.put (parent ++ [name]) .empty d.root).get? (parent ++ [name]) = some .empty := by
        simpa using Tree.get?_put_append .empty d.root (parent ++ [name]) []
      subst hnames
      rw [putAt, hempty, hnone]
      simp [Tree.empty]
    · exact hkept.file place hnames c m

/-- What every new directory brings about, and what goes on from there, is brought about by directories that are made
as far as possible. -/
theorem withDirectories_induction {R : Disk → Disk → Prop} (hrefl : ∀ d, R d d)
    (htrans : ∀ {d₁ d₂ d₃}, R d₁ d₂ → R d₂ d₃ → R d₁ d₃)
    (hmake : ∀ {d d' p}, d.makeDirectory p = .ok d' → R d d') (d : Disk) (p : String) :
    R d (d.withDirectories p).1 := by
  have hlast : ∀ d p, R d (makeLast true d p).1 := by
    intro d p
    rw [makeLast]
    split
    · next d' hmade => exact hmake hmade
    · exact hrefl d
  rw [withDirectories]
  generalize p.length + 1 = fuel
  induction fuel generalizing d p with
  | zero => exact hrefl d
  | succ fuel ih =>
    rw [makeDirectoriesFrom]
    dsimp only
    split
    · -- whatever is made above stays, also if the last directory cannot be made
      have habove := ih d (parentAndName p).1
      split
      · split
        · exact habove
        · exact htrans habove (hlast _ p)
      · split
        · exact habove
        · exact htrans habove (hlast _ p)
      · exact habove
    · exact hlast d p

/-- Directories that are made as far as possible change no file. -/
theorem withDirectories_spec (d : Disk) (p : String) : Grown d (d.withDirectories p).1 :=
  withDirectories_induction Grown.refl Grown.trans makeDirectory_spec d p

/-- What making directories brings about is brought about as far as they can be made. -/
theorem eq_withDirectories (h : d.makeDirectories p = .ok d') : (d.withDirectories p).1 = d' := by
  rw [makeDirectories] at h
  rcases hmake : d.withDirectories p with ⟨d₁, e | _⟩
  · rw [hmake] at h
    cases h
  · rw [hmake] at h
    cases h
    rfl

/-- Making directories changes no file. -/
theorem makeDirectories_spec (h : d.makeDirectories p = .ok d') : Grown d d' := by
  rw [← eq_withDirectories h]
  exact withDirectories_spec d p

end CodeAtlas.Disk
