import CodeAtlas.Map.Publish
import CodeAtlas.Proofs.Glob
import CodeAtlas.Proofs.Map.Repository
import CodeAtlas.Proofs.Sorting
import CodeAtlas.Proofs.Tag.Answer
import CodeAtlas.Proofs.Text.Case
import CodeAtlas.Proofs.Text.Utf8

/-!
# The files that hold a published map

A map that is split is written to temporary files, while the files that are said to hold it are looked for in the
directory of the publication, by a pattern in which the name of the repository is changed and no time is stamped.  So
they hold the parts of the map by chance only: they lead to the temporary files, or hold the same texts from before.

## Main definitions

* `Disk.HoldsAll` — files hold texts, in their order
* `Map.HoldsFrom` — a file holds a text because a part was written to it, or has held it before
* `Map.Ordinary` — names without wildcards, and a stamp that cannot be taken for the end of a name

## Main results

* `Map.generate_alikeOutside` — making a map changes nothing but the files of its parts
* `Map.Ordinary.not_samePlace` — the files that are looked for are not those of the parts
* `Map.publish_holdsParts_iff` — when the files that are said to hold a map do so
* `Map.publish_names_no_parts` — a map of two parts that no file is said to hold
-/

namespace CodeAtlas

open Job

/-- Files hold texts, in their order. -/
def Disk.HoldsAll (d : Disk) (files texts : List String) : Prop :=
  List.Forall₂ (fun file text => d.readBytes file = .ok (Text.encode text)) files texts

namespace Map

variable {r : Request} {w w' : Workspace} {name : String} {c c' : Cache} {tags : List Tag}

/-! ### What a map changes -/

theorem collectFiles_alike {v : Voice} {root : String} {left files : List String} (changing : String → Prop)
    (h : (collectFiles v root left c files).outcome w = (.ok (tags, c'), w')) :
    Disk.Alike changing w.disk w'.disk := by
  induction files generalizing c w tags with
  | nil =>
    cases h
    exact .refl _ _
  | cons file files ih =>
    obtain ⟨rel, w₁, hlook, hnamed⟩ := outcome_bind_eq_ok.1 h
    obtain ⟨-, rfl⟩ := outcome_look_eq_ok.1 hlook
    split at hnamed
    · obtain ⟨_, w₂, hnone, hasked⟩ := outcome_bind_eq_ok.1 hnamed
      cases hnone
      obtain ⟨⟨others, c₂⟩, w₃, hrest, hpure⟩ := outcome_bind_eq_ok.1 hasked
      cases hpure
      exact ih hrest
    · obtain ⟨⟨own, c₁⟩, w₂, hcached, hasked⟩ := outcome_bind_eq_ok.1 hnamed
      obtain ⟨⟨others, c₂⟩, w₃, hrest, hpure⟩ := outcome_bind_eq_ok.1 hasked
      cases hpure
      exact (Tag.cached_alike hcached changing).trans (ih hrest)

theorem collectGroups_alike {v : Voice} {root : String} {left : List String} {groups : List (String × List String)}
    (changing : String → Prop) (h : (collectGroups v root left c groups).outcome w = (.ok (tags, c'), w')) :
    Disk.Alike changing w.disk w'.disk := by
  induction groups generalizing c w tags with
  | nil =>
    cases h
    exact .refl _ _
  | cons group groups ih =>
    obtain ⟨console, own, c₁, w₂, others, hfiles, hrest, -⟩ := collectGroups_cons_eq_ok h
    exact (collectFiles_alike changing hfiles).trans (ih hrest)

theorem gather_alike (h : (gather r c).outcome w = (.ok (tags, c'), w')) (changing : String → Prop) :
    Disk.Alike changing w.disk w'.disk := by
  obtain ⟨console, hcollect⟩ := gather_eq_ok h
  obtain ⟨chat, console', groups, found, -, hgroups, -⟩ := collect_eq_ok hcollect
  have halike := collectGroups_alike changing hgroups
  exact halike

/-- The places to which paths lead. -/
def placesOf (d : Disk) (files : List String) (q : List String) : Prop :=
  ∃ file ∈ files, ∃ t, d.locate file = .ok (.found q t)

/-- Parts that are written change nothing but their own files. -/
theorem writeParts_alikeOutside {number : Nat} {texts files : List String}
    (h : (writeParts r name number texts).outcome w = (.ok files, w')) :
    Disk.AlikeOutside (placesOf w'.disk files) w.disk w'.disk := by
  induction texts generalizing number w files with
  | nil =>
    cases h
    exact .refl _ _
  | cons text texts ih =>
    have hheld := (writeParts_spec h).2.1
    obtain ⟨d, console, rest, hwritten, hrest, rfl⟩ := writeParts_cons_eq_ok h
    have hlater : Disk.AlikeOutside (placesOf w'.disk rest) d w'.disk := ih hrest
    -- the file of this part holds it in the end, so that its path still leads to the place that was written
    obtain ⟨q', time', hlast⟩ := (List.forall₂_cons.1 hheld).1
    have hplace : ∀ q, (∃ t, d.locate (partPath w name number) = .ok (.found q t)) → q' = q := by
      rintro q ⟨t, ht⟩
      exact Disk.place_eq hlater.here_eq ht hlast
    refine ((Disk.AlikeOutside.of_write hwritten).mono fun q hq => ?_).trans (hlater.mono fun q hq => ?_)
    · exact ⟨_, List.mem_cons_self, _, hplace q hq ▸ hlast⟩
    · obtain ⟨file, hfile, ht⟩ := hq
      exact ⟨file, List.mem_cons_of_mem _ hfile, ht⟩

/-- A listing that is split changes nothing but the files of its parts, whose names have the name of the root. -/
theorem split_alikeOutside {paths : List String} {out : Outcome} (h : (split r paths).outcome w = (.ok out, w')) :
    Disk.AlikeOutside (placesOf w'.disk out.parts) w.disk w'.disk ∧
      ∃ root, w.disk.absolute r.root = .ok root ∧
        ∀ part ∈ out.parts, ∃ number, part = partPath w (Path.baseName root) number := by
  obtain ⟨root, w₁, console, habsolute, rfl, hwritten, -⟩ := split_eq_ok h
  have halike := writeParts_alikeOutside hwritten
  refine ⟨halike, root, habsolute, fun part hpart => ?_⟩
  rw [(writeParts_spec hwritten).1] at hpart
  obtain ⟨number, -, hnumber⟩ := List.mem_map.1 hpart
  exact ⟨number, hnumber.symm⟩

/-- Making a map changes nothing but the files of its parts, which hold them. -/
theorem generate_alikeOutside {out : Outcome} (h : (generate r c).outcome w = (.ok (out, c'), w')) :
    (∃ texts, List.Forall₂ w'.disk.Holds out.parts texts) ∧
      Disk.AlikeOutside (placesOf w'.disk out.parts) w.disk w'.disk ∧
      ∀ part ∈ out.parts, ∃ root number, w.disk.absolute r.root = .ok root ∧
        part = partPath w (Path.baseName root) number := by
  obtain ⟨tags, w₁, paths, hgather, hsettings, -, hcases⟩ := generate_eq_ok h
  have hbefore : ∀ places, Disk.AlikeOutside places w.disk w₁.disk := fun _ => .of_alike (gather_alike hgather)
  rcases hcases with ⟨-, rfl, rfl⟩ | ⟨-, -, -, hsplit⟩
  · -- a map that is not split has no parts
    exact ⟨⟨[], .nil⟩, hbefore _, by simp⟩
  · obtain ⟨hafter, root, hroot, hparts⟩ := split_alikeOutside hsplit
    refine ⟨⟨_, (split_spec hsplit).1⟩, (hbefore _).trans hafter, fun part hpart => ?_⟩
    obtain ⟨number, hnumber⟩ := hparts part hpart
    have hhere : w₁.disk.here = w.disk.here := congrArg (·.disk.here) hsettings
    have htemporary : w₁.temporary = w.temporary := congrArg (·.temporary) hsettings
    have hstamp : w₁.stamp = w.stamp := congrArg (·.stamp) hsettings
    refine ⟨root, number, (Disk.absolute_congr hhere r.root).symm.trans hroot, ?_⟩
    rw [hnumber, partPath, partPath, htemporary, hstamp]

/-! ### Names stay without slashes -/

theorem maintains_named_makeDirectories (path : String) : (Job.makeDirectories path).Maintains Disk.Named := by
  intro w hw
  rw [outcome_makeDirectories]
  exact hw.withDirectories path

theorem maintains_named_put (path : String) (data : Database) : (Cache.put path data).Maintains Disk.Named :=
  keeps_get.maintains.bind fun _ => maintains_change fun _ _ hd hwrite => hd.writeContent hwrite

theorem maintains_named_load (root : String) : (Cache.load root).Maintains Disk.Named := by
  refine (maintains_named_makeDirectories _).bind fun _ => (keeps_look _).maintains.bind fun data => ?_
  split
  · exact maintains_named_put _ _
  · exact (maintains_named_put _ _).bind fun _ => (keeps_throw _).maintains

theorem maintains_named_create (s : Settings) : (Repository.create s).Maintains Disk.Named := by
  have hsay : ∀ text, (s.voice.say text).Maintains Disk.Named := fun text =>
    Tells.maintains fun w => outcome_say s.voice text w
  have hwarn : ∀ text, (s.voice.warn text).Maintains Disk.Named := fun text =>
    Tells.maintains fun w => outcome_warn s.voice text w
  have hcache : ∀ root, (Cache.create root s.voice).Maintains Disk.Named := by
    intro root
    refine (maintains_named_load root).attempt.bind fun ended => ?_
    split
    · exact (hsay _).bind fun _ => (keeps_pure _).maintains
    · exact (hwarn _).bind fun _ => (hwarn _).bind fun _ => (keeps_pure _).maintains
  refine (keeps_look _).maintains.bind fun root => (hcache root).bind fun cache => ?_
  refine (keeps_look _).maintains.bind fun limit => (hsay _).bind fun _ => ?_
  exact (Repository.tells_tellSkipped _ _).maintains.bind fun _ => (keeps_pure _).maintains

/-! ### What files hold -/

/-- A file holds a text because the part with this text was written to it, or because it held it before and no part was
written to it. -/
def HoldsFrom (before after : Disk) (parts texts : List String) (file text : String) : Prop :=
  (∃ part, (part, text) ∈ parts.zip texts ∧ after.SamePlace file part) ∨
    (∀ part ∈ parts, ¬after.SamePlace file part) ∧ before.readBytes file = .ok (Text.encode text)

theorem exists_holds {d : Disk} {parts texts : List String} {part : String} (h : List.Forall₂ d.Holds parts texts)
    (hpart : part ∈ parts) : ∃ text, (part, text) ∈ parts.zip texts ∧ d.Holds part text := by
  obtain ⟨hlength, hzip⟩ := List.forall₂_iff_zip.1 h
  rw [← List.map_fst_zip (Nat.le_of_eq hlength)] at hpart
  obtain ⟨⟨_, text⟩, hmem, rfl⟩ := List.mem_map.1 hpart
  exact ⟨text, hmem, hzip hmem⟩

theorem readBytes_iff_holdsFrom {before after : Disk} {parts texts : List String}
    (hheld : List.Forall₂ after.Holds parts texts)
    (halike : Disk.AlikeOutside (placesOf after parts) before after) (file text : String) :
    after.readBytes file = .ok (Text.encode text) ↔ HoldsFrom before after parts texts file text := by
  by_cases hsame : ∃ part ∈ parts, after.SamePlace file part
  · obtain ⟨part, hpart, hplace⟩ := hsame
    constructor
    · -- the text of the part is in its file, so that it is the text that is read
      intro hread
      obtain ⟨text', hmem, hholds⟩ := exists_holds hheld hpart
      have hown := hplace.readBytes_eq_ok hholds.readBytes
      have htext : text' = text := Text.encode_injective (Except.ok.inj (hown.symm.trans hread))
      exact Or.inl ⟨part, htext ▸ hmem, hplace⟩
    · rintro (⟨part', hmem, hplace'⟩ | ⟨hnone, -⟩)
      · exact hplace'.readBytes_eq_ok ((List.forall₂_iff_zip.1 hheld).2 hmem).readBytes
      · exact absurd hplace (hnone part hpart)
  · have hthere : ∀ q, placesOf after parts q → ∃ t, after.root.get? q = some t := by
      rintro q ⟨part, -, t, hlocate⟩
      obtain ⟨_, -, hleads⟩ := Disk.locate_eq_ok.1 hlocate
      exact ⟨t, hleads.get?_found⟩
    have hout : ∀ q t, after.locate file = .ok (.found q t) → ¬placesOf after parts q := by
      rintro q t hlocate ⟨part, hpart, t', hlocate'⟩
      obtain ⟨_, -, hleads⟩ := Disk.locate_eq_ok.1 hlocate
      obtain ⟨_, -, hleads'⟩ := Disk.locate_eq_ok.1 hlocate'
      have ht : t = t' := Option.some.inj (hleads.get?_found.symm.trans hleads'.get?_found)
      exact hsame ⟨part, hpart, q, t, hlocate, ht ▸ hlocate'⟩
    rw [halike.readBytes_eq_ok hthere hout, HoldsFrom]
    constructor
    · intro hread
      exact Or.inr ⟨fun part hpart hplace => hsame ⟨part, hpart, hplace⟩, hread⟩
    · rintro (⟨part, hmem, hplace⟩ | ⟨-, hread⟩)
      · exact absurd ⟨part, (List.of_mem_zip hmem).1, hplace⟩ hsame
      · exact hread

/-! ### The files of a publication -/

/-- The pattern for the names of the files that are said to hold the map of a repository. -/
def publishedPattern (name : String) : String := s!"repomap_{publishedName name}_part*.txt"

/-- Names on the disk without slashes, a name of the repository that stands for itself in a pattern, and a stamp that
does not look like the end of a name. -/
structure Ordinary (w : Workspace) (name : String) : Prop where
  named : w.disk.Named
  plain : Glob.hasWildcard (publishedName name) = false
  slash : '/' ∉ (publishedName name).toList
  stamp_slash : '/' ∉ w.stamp.toList
  stamp_part : ¬"part".toList <+: w.stamp.toList

theorem toList_publishedName (name : String) :
    (publishedName name).toList = Text.lowerFrom [] (Text.replaceChars [' '] ['_'] 0 name.toList) := by
  simp [publishedName, Text.lower, Text.replaceAll]

theorem publishedPattern_eq (name : String) :
    publishedPattern name = "repomap_" ++ publishedName name ++ "_part" ++ "*.txt" := by
  simp [publishedPattern, toString, String.append_assoc]

/-- The names of parts do not match the pattern by which files are looked for. -/
theorem Ordinary.not_accepts (h : Ordinary w name) (hname : '/' ∉ name.toList) (number : Nat) :
    Glob.accepts (publishedPattern name) (Path.baseName (partPath w name number)) = false := by
  rw [← Bool.not_eq_true]
  intro haccepts
  have hplain : Glob.hasWildcard ("repomap_" ++ publishedName name ++ "_part") = false := by
    rw [Glob.hasWildcard_append, Glob.hasWildcard_append, h.plain]
    decide
  rw [publishedPattern_eq] at haccepts
  have hstart := Glob.prefix_of_accepts hplain haccepts
  have hslash : '/' ∉ ("repomap_" ++ name ++ "_" ++ w.stamp).toList := by
    simp [hname, h.stamp_slash]
  rw [baseName_partPath, Path.baseName_of_not_mem hslash] at hstart
  simp only [String.toList_append, List.append_assoc, List.prefix_append_right_inj] at hstart
  -- the name of the repository is not changed, or it could not be that of the parts
  rw [toList_publishedName] at hstart
  rw [Text.lowerFrom_eq_of_prefix hstart, List.prefix_append_right_inj] at hstart
  have hpart : "part".toList <+: w.stamp.toList ++ '_' :: (partEnding number).toList.tail := by
    simpa [partEnding] using hstart
  exact h.stamp_part (Text.prefix_of_append (by decide) hpart)

/-- No file that is looked for by the pattern is one to which a part was written. -/
theorem Ordinary.not_samePlace {d : Disk} {directory : String} {parts texts : List String} (h : Ordinary w name)
    (hheld : List.Forall₂ d.Holds parts texts) (halike : Disk.AlikeOutside (placesOf d parts) w.disk d)
    (hparts : ∀ part ∈ parts, ∃ number, part = partPath w name number) (hname : '/' ∉ name.toList) :
    ∀ file ∈ sortTexts (Glob.expand d false (Path.join directory (publishedPattern name))), ∀ part ∈ parts,
      ¬d.SamePlace file part := by
  have hnamed : d.Named := by
    refine h.named.of_alikeOutside halike ?_
    rintro q ⟨part, hpart, t, hlocate⟩
    obtain ⟨text, -, q', time, hfile⟩ := exists_holds hheld hpart
    cases hfile.symm.trans hlocate
    exact ⟨part, _, time, hfile⟩
  have hpattern : Path.baseName (Path.join directory (publishedPattern name)) = publishedPattern name := by
    rw [Path.baseName_join, Path.baseName_of_not_mem]
    simp [publishedPattern_eq, h.slash]
  have hwild : Glob.hasWildcard (publishedPattern name) = true := by
    rw [publishedPattern_eq, Glob.hasWildcard_append, Bool.or_eq_true]
    exact Or.inr (by decide)
  rintro file hfile part hpart ⟨q, t, hlocate, hlocate'⟩
  obtain ⟨text, -, q', time, hpartFile⟩ := exists_holds hheld hpart
  cases hpartFile.symm.trans hlocate'
  -- a path that leads to the part ends in its name
  have hbase : Path.baseName file = Path.baseName part := Disk.baseName_eq_of_locate hlocate hpartFile
  obtain ⟨number, hnumber⟩ := hparts part hpart
  rw [← hpattern] at hwild
  have hfound := (sortTexts_perm _).mem_iff.1 hfile
  have haccepts := Glob.accepts_of_mem_expand hnamed hwild hfound
  rw [hpattern, hbase, hnumber, h.not_accepts hname number] at haccepts
  exact Bool.false_ne_true haccepts

/-- What is published of some paths, and which files are said to hold it if it may be split. -/
theorem exists_of_publish {p : Publication} {paths files : List String} {text : String}
    (h : (publish p paths).outcome w = (.ok (text, files), w')) :
    ∃ w₁ r w₂ here r' w₃, (Job.makeDirectories p.directory).outcome w = (.ok (), w₁) ∧
      (Repository.create (p.settings w₁.encoder)).outcome w₁ = (.ok r, w₂) ∧ w₂.disk.absolute "." = .ok here ∧
      (r.map [] paths).outcome w₂ = (.ok (text, r'), w₃) ∧
      (p.single = false → w' = w₃ ∧ files =
        sortTexts (Glob.expand w₃.disk false (Path.join p.directory (publishedPattern (Path.baseName here))))) := by
  obtain ⟨_, w₁, hmake, hmade⟩ := outcome_bind_eq_ok.1 h
  replace hmade := (outcome_bind_of_ok (outcome_get w₁) _).symm.trans hmade
  obtain ⟨r, w₂, hcreate, hcreated⟩ := outcome_bind_eq_ok.1 hmade
  obtain ⟨here, w₃, hlook, hnamed⟩ := outcome_bind_eq_ok.1 hcreated
  obtain ⟨habsolute, rfl⟩ := outcome_look_eq_ok.1 hlook
  obtain ⟨⟨shown, r'⟩, w₄, hmap, hmapped⟩ := outcome_bind_eq_ok.1 hnamed
  refine ⟨w₁, r, _, here, r', w₄, hmake, hcreate, habsolute, ?_⟩
  -- however the files that hold the map are found, the text is that of the map
  dsimp only at hmapped
  split at hmapped
  · next hsingle =>
    obtain ⟨⟨written, access⟩, w₅, -, hpure⟩ := outcome_bind_eq_ok.1 hmapped
    cases hpure
    exact ⟨hmap, fun hsplit => absurd (hsingle.symm.trans hsplit) (by decide)⟩
  · cases (outcome_bind_of_ok (outcome_disk w₄) _).symm.trans hmapped
    exact ⟨hmap, fun _ => ⟨rfl, rfl⟩⟩

theorem root_of_create {s : Settings} {r : Repository} (h : (Repository.create s).outcome w = (.ok r, w'))
    (hroot : s.root = some ".") : r.root = "." := by
  obtain ⟨root, cache, limit, w₁, console, hrootOf, -, -, rfl, -⟩ := Repository.create_eq_ok h
  rw [Repository.rootOf, hroot] at hrootOf
  exact (Except.ok.inj hrootOf).symm

/-- When the files that are said to hold a map hold its parts: exactly if each of them is a file to which the part with
its text was written, or held that text before.  Where nothing is out of the ordinary none of them is such a file, so
that they hold the parts exactly if they did so before. -/
theorem publish_holdsParts_iff (w w' : Workspace) (p : Publication) (paths files : List String) (text : String)
    (hsplit : p.single = false) (h : (publish p paths).outcome w = (.ok (text, files), w')) :
    ∃ w₁ r w₂ here console out c texts,
      (Job.makeDirectories p.directory).outcome w = (.ok (), w₁) ∧
      (Repository.create (p.settings w₁.encoder)).outcome w₁ = (.ok r, w₂) ∧ w.disk.absolute "." = .ok here ∧
      (generate (r.request [] (paths.filter w₂.disk.exists?) [] []) r.cache).outcome { w₂ with console := console } =
        (.ok (out, c), w') ∧
      w'.disk.HoldsAll out.parts texts ∧
      files = sortTexts (Glob.expand w'.disk false (Path.join p.directory (publishedPattern (Path.baseName here)))) ∧
      (w'.disk.HoldsAll files texts ↔ List.Forall₂ (HoldsFrom w₂.disk w'.disk out.parts texts) files texts) ∧
      (Ordinary w (Path.baseName here) →
        (∀ file ∈ files, ∀ part ∈ out.parts, ¬w'.disk.SamePlace file part) ∧
        (w'.disk.HoldsAll files texts ↔ w₂.disk.HoldsAll files texts)) := by
  obtain ⟨w₁, r, w₂, here, r', w₃, hmake, hcreate, hhere, hmap, hfound⟩ := exists_of_publish h
  obtain ⟨rfl, hfiles⟩ := hfound hsplit
  obtain ⟨console, out, c, hgenerate, -, -⟩ := Repository.map_eq_ok hmap
  obtain ⟨⟨texts, hheld⟩, halike, hparts⟩ := generate_alikeOutside hgenerate
  have hiff := readBytes_iff_holdsFrom hheld halike
  have hsettings : w₂.settings = w.settings :=
    ((Repository.keeps_create _).of_outcome hcreate).trans ((keeps_makeDirectories _).of_outcome hmake)
  have hroot : w.disk.absolute "." = .ok here :=
    (Disk.absolute_congr (congrArg (·.disk.here) hsettings) ".").symm.trans hhere
  refine ⟨w₁, r, w₂, here, console, out, c, texts, hmake, hcreate, hroot, hgenerate,
    hheld.imp fun _ _ hholds => hholds.readBytes, hfiles, ?_, fun hordinary => ?_⟩
  · exact ⟨fun hall => hall.imp fun file text => (hiff file text).1,
      fun hall => hall.imp fun file text => (hiff file text).2⟩
  have hnamed : w₂.disk.Named :=
    (maintains_named_create _).of_outcome hcreate
      ((maintains_named_makeDirectories _).of_outcome hmake hordinary.named)
  have hstamp : w₂.stamp = w.stamp := congrArg (·.stamp) hsettings
  have hlater : Ordinary { w₂ with console := console } (Path.baseName here) :=
    ⟨hnamed, hordinary.plain, hordinary.slash, hstamp ▸ hordinary.stamp_slash, hstamp ▸ hordinary.stamp_part⟩
  have hapart : ∀ file ∈ files, ∀ part ∈ out.parts, ¬w'.disk.SamePlace file part := by
    rw [hfiles]
    refine hlater.not_samePlace hheld halike (fun part hpart => ?_) (Path.not_mem_baseName here)
    obtain ⟨root, number, hown, hnumber⟩ := hparts part hpart
    rw [Repository.request, root_of_create hcreate rfl] at hown
    cases hhere.symm.trans hown
    exact ⟨number, hnumber⟩
  refine ⟨hapart, ?_⟩
  simp only [Disk.HoldsAll, List.forall₂_iff_zip]
  refine and_congr_right fun _ => forall₂_congr fun file text => forall_congr' fun hmem => ?_
  have hnone := hapart file (List.of_mem_zip hmem).1
  rw [hiff, HoldsFrom]
  constructor
  · rintro (⟨part, hpart, hsame⟩ | ⟨-, hread⟩)
    · exact absurd hsame (hnone part (List.of_mem_zip hpart).1)
    · exact hread
  · intro hread
    exact Or.inr ⟨hnone, hread⟩

/-- A workspace with two files, counted so that a part has room for one of them, and an output directory. -/
def twoPartsWorkspace (output : List (String × Tree)) : Workspace where
  disk :=
    { root := .directory [("tmp", .empty), ("r", .directory [
        ("a.py", .file (.bytes (Text.encode "def f():\n")) 0), ("b.py", .file (.bytes []) 0),
        ("output", .directory output)])]
      here := some ["r"] }
  stamp := "now"
  encoder := some { models := [defaultModel], count := fun text => 100 * text.length }

/-- A file that was left in the output directory is said to hold the map, with which it has nothing to do. -/
theorem publish_holdsParts_older_file :
    ∃ text files w' w₂ parts texts, (publish { tokens := 4096 } ["a.py", "b.py"]).outcome
        (twoPartsWorkspace [("repomap_r_part1.txt", .file (.bytes []) 0)]) = (.ok (text, files), w') ∧
      files = ["output/repomap_r_part1.txt"] ∧
      Ordinary (twoPartsWorkspace [("repomap_r_part1.txt", .file (.bytes []) 0)]) "r" ∧
      w'.disk.HoldsAll parts texts ∧ (∀ file ∈ files, ∀ part ∈ parts, ¬w'.disk.SamePlace file part) ∧
      (w'.disk.HoldsAll files texts ↔ Disk.HoldsAll w₂ files texts) := by
  have hfiles : ((publish { tokens := 4096 } ["a.py", "b.py"]).outcome
      (twoPartsWorkspace [("repomap_r_part1.txt", .file (.bytes []) 0)])).1.toOption.map (·.2) =
        some ["output/repomap_r_part1.txt"] := by
    decide +kernel
  have hordinary : Ordinary (twoPartsWorkspace [("repomap_r_part1.txt", .file (.bytes []) 0)]) "r" :=
    ⟨Disk.named_of_names (by decide), by decide +kernel, by decide +kernel, by decide, by decide⟩
  obtain ⟨⟨text, files⟩, w', hrun, heq⟩ := exists_of_toOption hfiles
  obtain ⟨w₁, r, w₂, here, console, out, c, texts, -, -, hhere, -, hheld, -, -, hholds⟩ :=
    publish_holdsParts_iff _ w' { tokens := 4096 } _ files text rfl hrun
  have hname : Path.baseName here = "r" := by
    cases hhere
    decide
  obtain ⟨hapart, hiff⟩ := hholds (hname ▸ hordinary)
  exact ⟨text, files, w', w₂.disk, out.parts, texts, hrun, heq, hordinary, hheld, hapart, hiff⟩

/-- A map of two parts that no file is said to hold: the parts are in temporary files. -/
theorem publish_names_no_parts :
    ∃ w', (publish { tokens := 4096 } ["a.py", "b.py"]).outcome (twoPartsWorkspace []) =
        (.ok ("Repository contents:\n\n.py files:\n  a.py\n\n\nRepository map split into 2 parts", []), w') ∧
      w'.disk.HoldsAll ["/tmp/repomap_r_now_part00001.txt", "/tmp/repomap_r_now_part00002.txt"]
        ["Repository contents:\n\n.py files:\n  a.py", "Repository contents:\n\n.py files:\n  b.py"] ∧
      ¬w'.disk.HoldsAll []
        ["Repository contents:\n\n.py files:\n  a.py", "Repository contents:\n\n.py files:\n  b.py"] := by
  have hpublished : ((publish { tokens := 4096 } ["a.py", "b.py"]).outcome (twoPartsWorkspace [])).1.toOption =
      some ("Repository contents:\n\n.py files:\n  a.py\n\n\nRepository map split into 2 parts", []) := by
    decide +kernel
  have hread : ["/tmp/repomap_r_now_part00001.txt", "/tmp/repomap_r_now_part00002.txt"].map (fun file =>
      (((publish { tokens := 4096 } ["a.py", "b.py"]).outcome (twoPartsWorkspace [])).2.disk.readBytes file).toOption) =
        [some (Text.encode "Repository contents:\n\n.py files:\n  a.py"),
          some (Text.encode "Repository contents:\n\n.py files:\n  b.py")] := by
    decide +kernel
  obtain ⟨w', hrun⟩ := exists_of_toOption_eq hpublished
  simp only [hrun, List.map_cons, List.map_nil, List.cons.injEq, and_true] at hread
  refine ⟨w', hrun, ?_, fun hnone => by cases hnone⟩
  exact .cons (eq_ok_of_toOption hread.1) (.cons (eq_ok_of_toOption hread.2) .nil)

end Map

end CodeAtlas
