import Mathlib.Data.List.Chain
import Mathlib.Data.List.Nodup
import Mathlib.Data.List.Range
import Toolpath.Proofs.Synthesis.Strokes

/-!
# Rasters

A relief is cut pixel by pixel. The tool plunges at the first pixel and is not raised before the
last, so every move between two pixels goes through the material, and it may only lead to the next
one beside. Rows alternate in their direction: a row ends in the column where the next one begins.

What is said of a row is said for either direction, as reversing a list keeps its members, and keeps
neighbors beside each other. Only where one row meets the next does the direction matter.

A pixel has its own place and its own height. The buffer may be too short for the image, and what it
does not hold is surface.

## Main definitions

* `Cutting.Beside`, `Cutting.Covers` — a path through every pixel, from each to one beside it
* `Command.sites` — where the tool is sent by cutting moves
* `Cutting.Rasters` — commands that cut pixels in the order of a path
* `Relief.center`, `Relief.height` — the place and the height of a pixel

## Main results

* `Cutting.covers_snake` — the snake goes through every pixel once, from each to one beside it
* `Cutting.rasters_surface` — the tool is sent to the pixels of a path
* `Document.rasters_of_written` — a relief cuts every pixel once, at its own height
-/

namespace Toolpath

namespace Cutting

/-! ### The snake -/

/-- Pixels next to each other in a row or in a column. -/
def Beside (p q : Nat × Nat) : Prop :=
  (p.2 = q.2 ∧ (p.1 + 1 = q.1 ∨ q.1 + 1 = p.1)) ∨ (p.1 = q.1 ∧ (p.2 + 1 = q.2 ∨ q.2 + 1 = p.2))

theorem Beside.symm {p q : Nat × Nat} (h : Beside p q) : Beside q p := by
  rw [Beside] at h ⊢
  omega

/-- A path goes through every pixel of an image once, from each to one beside it. -/
structure Covers (columns rows : Nat) (path : List (Nat × Nat)) : Prop where
  /-- There are as many steps as pixels. -/
  length : path.length = columns * rows
  /-- No pixel is met again. -/
  nodup : path.Nodup
  /-- All pixels are met, and nothing beside the image is. -/
  mem_iff : ∀ p, p ∈ path ↔ p.1 < columns ∧ p.2 < rows
  /-- The next pixel is one beside. -/
  beside : path.IsChain Beside

/-- The pixels of a row in the order of the snake. -/
def snakeRow (columns j : Nat) : List (Nat × Nat) :=
  (if j % 2 = 0 then List.range columns else (List.range columns).reverse).map fun i => (i, j)

theorem snake_eq (columns rows : Nat) :
    snake columns rows = (List.range rows).flatMap (snakeRow columns) := rfl

/-- Either direction of a row has the same pixels. -/
theorem snakeRow_perm (columns j : Nat) :
    (snakeRow columns j).Perm ((List.range columns).map fun i => (i, j)) := by
  rw [snakeRow]
  split
  · exact .refl _
  · exact (List.reverse_perm _).map _

theorem mem_snakeRow_iff {columns j : Nat} {p : Nat × Nat} :
    p ∈ snakeRow columns j ↔ p.1 < columns ∧ p.2 = j := by
  rw [(snakeRow_perm columns j).mem_iff, List.mem_map]
  constructor
  · rintro ⟨i, hi, rfl⟩
    exact ⟨List.mem_range.mp hi, rfl⟩
  · rintro ⟨hi, rfl⟩
    exact ⟨p.1, List.mem_range.mpr hi, rfl⟩

theorem nodup_snakeRow (columns j : Nat) : (snakeRow columns j).Nodup :=
  (snakeRow_perm columns j).nodup_iff.mpr
    (List.nodup_range.map fun _ _ h => congrArg Prod.fst h)

/-- Going along a row, in either direction, leads to the pixel beside. -/
theorem isChain_snakeRow (columns j : Nat) : (snakeRow columns j).IsChain Beside := by
  have hrange : (List.range columns).IsChain fun i k => Beside (i, j) (k, j) :=
    (List.isChain_range _ columns).mpr fun i _ => .inl ⟨rfl, .inl rfl⟩
  rw [snakeRow, List.isChain_map]
  split
  · exact hrange
  · exact List.isChain_reverse.mpr (hrange.imp fun _ _ => Beside.symm)

/-- The column in which a row ends. -/
def turn? (columns j : Nat) : Option Nat :=
  if j % 2 = 0 then (List.range columns).getLast? else (List.range columns).head?

theorem getLast?_snakeRow (columns j : Nat) :
    (snakeRow columns j).getLast? = (turn? columns j).map fun i => (i, j) := by
  rw [snakeRow, turn?, List.getLast?_map]
  split
  · rfl
  · rw [List.getLast?_reverse]

theorem head?_snakeRow_succ (columns j : Nat) :
    (snakeRow columns (j + 1)).head? = (turn? columns j).map fun i => (i, j + 1) := by
  rw [snakeRow, turn?, List.head?_map]
  rcases Nat.mod_two_eq_zero_or_one j with heven | hodd
  · rw [if_neg (by omega), if_pos heven, List.head?_reverse]
  · rw [if_pos (by omega), if_neg (by omega)]

/-- **A row begins where the one before it ends.** -/
theorem beside_of_snakeRow {columns j : Nat} {p q : Nat × Nat}
    (hp : p ∈ (snakeRow columns j).getLast?) (hq : q ∈ (snakeRow columns (j + 1)).head?) :
    Beside p q := by
  rw [getLast?_snakeRow] at hp
  rw [head?_snakeRow_succ] at hq
  obtain ⟨i, hi, rfl⟩ := Option.mem_map.mp hp
  obtain ⟨k, hk, rfl⟩ := Option.mem_map.mp hq
  exact .inr ⟨Option.mem_unique hi hk, .inl rfl⟩

theorem mem_snake_iff {columns rows : Nat} {p : Nat × Nat} :
    p ∈ snake columns rows ↔ p.1 < columns ∧ p.2 < rows := by
  rw [snake_eq, List.mem_flatMap]
  constructor
  · rintro ⟨j, hj, hp⟩
    obtain ⟨hi, rfl⟩ := mem_snakeRow_iff.mp hp
    exact ⟨hi, List.mem_range.mp hj⟩
  · rintro ⟨hi, hj⟩
    exact ⟨p.2, List.mem_range.mpr hj, mem_snakeRow_iff.mpr ⟨hi, rfl⟩⟩

theorem nodup_snake (columns rows : Nat) : (snake columns rows).Nodup := by
  rw [snake_eq]
  refine List.nodup_flatMap.mpr ⟨fun j _ => nodup_snakeRow columns j, ?_⟩
  refine List.nodup_range.imp fun hne => List.disjoint_left.mpr ?_
  intro p hp hp'
  exact hne ((mem_snakeRow_iff.mp hp).2.symm.trans (mem_snakeRow_iff.mp hp').2)

theorem length_snake (columns rows : Nat) : (snake columns rows).length = columns * rows := by
  have hrow (j : Nat) : (snakeRow columns j).length = columns := by
    rw [(snakeRow_perm columns j).length_eq, List.length_map, List.length_range]
  rw [snake_eq, List.length_flatMap, List.map_congr_left fun j _ => hrow j, List.map_const',
    List.length_range, List.sum_replicate_nat, Nat.mul_comm]

theorem isChain_snake {columns : Nat} (h : 0 < columns) (rows : Nat) :
    (snake columns rows).IsChain Beside := by
  rw [snake_eq, List.flatMap_def]
  have hrows : [] ∉ (List.range rows).map (snakeRow columns) := by
    intro hnil
    obtain ⟨j, -, hrow⟩ := List.mem_map.mp hnil
    exact List.ne_nil_of_mem (mem_snakeRow_iff.mpr ⟨h, rfl⟩ : (0, j) ∈ snakeRow columns j) hrow
  refine (List.isChain_flatten hrows).mpr ⟨?_, ?_⟩
  · rintro row hrow
    obtain ⟨j, -, rfl⟩ := List.mem_map.mp hrow
    exact isChain_snakeRow columns j
  · refine (List.isChain_map _).mpr ((List.isChain_range _ rows).mpr fun j _ => ?_)
    exact fun p hp q hq => beside_of_snakeRow hp hq

/-- **The snake** goes through every pixel once, from each to one beside it. -/
theorem covers_snake {columns : Nat} (h : 0 < columns) (rows : Nat) :
    Covers columns rows (snake columns rows) where
  length := length_snake columns rows
  nodup := nodup_snake columns rows
  mem_iff := fun _ => mem_snake_iff
  beside := isChain_snake h rows

end Cutting

/-! ### Where the tool is sent -/

namespace Command

variable {R : Type}

/-- Whether a command is a cutting move, in the plane or in Z. -/
def isCutMove : Command R → Bool
  | feedZ _ _ => true
  | c => c.isStroke

/-- Where the tool is sent by cutting moves, one after the other, if it was sent to `s` before. -/
def sites (s : Stand R) : List (Command R) → List (Stand R)
  | [] => []
  | c :: cs => (if c.isCutMove then [s.after c] else []) ++ sites (s.after c) cs

end Command

namespace Cutting

open Command (sites)

variable {R : Type}

/-- Commands cut pixels in the order of a path, each at its target. The tool is raised, sent to the
first pixel and plunged there; from each pixel it is sent to the next; and it is raised behind the
last. -/
structure Rasters [Analytic R] (c : Cutting R) (comment : String) (target : Nat × Nat → Vec2 R × R)
    (path : List (Nat × Nat)) (cs : List (Command R)) : Prop where
  /-- There is one rapid move with a plunge, and then one cutting move for each pixel. -/
  whole : ∃ first later, path = first :: later ∧ cs =
    [.remark comment, c.lift, .rapid (target first).1, .feedZ (target first).2 c.plunge] ++
      (later.map fun p => .feedTo (target p).1 (target p).2 c.tool.feed) ++ [c.lift]
  /-- The tool is sent to the targets of the pixels, one after the other. -/
  sent : sites {} cs = path.map fun p => ⟨some (target p).2, some (target p).1⟩

/-- Where the tool is sent by moves from pixel to pixel. -/
theorem sites_feedTo (c : Cutting R) (target : Nat × Nat → Vec2 R × R) (s : Command.Stand R)
    (path : List (Nat × Nat)) :
    sites s ((path.map fun p => .feedTo (target p).1 (target p).2 c.tool.feed) ++ [c.lift]) =
      path.map fun p => ⟨some (target p).2, some (target p).1⟩ := by
  induction path generalizing s with
  | nil => rfl
  | cons p path ih => exact congrArg (_ :: ·) (ih _)

/-- **The moves of a relief** lead through the targets of its pixels. -/
theorem rasters_surface [Analytic R] (c : Cutting R) (comment : String)
    (target : Nat × Nat → Vec2 R × R) {path : List (Nat × Nat)} (hne : path ≠ []) :
    c.Rasters comment target path
      ([.remark comment, c.lift] ++ c.surface (path.map target) ++ [c.lift]) := by
  obtain ⟨first, later, rfl⟩ := List.exists_cons_of_ne_nil hne
  have hcommands : c.surface ((first :: later).map target) =
      .rapid (target first).1 :: .feedZ (target first).2 c.plunge ::
        later.map fun p => .feedTo (target p).1 (target p).2 c.tool.feed := by
    rw [List.map_cons, surface, List.map_map]
    rfl
  rw [hcommands]
  exact ⟨⟨first, later, rfl, rfl⟩, congrArg (_ :: ·) (c.sites_feedTo target _ later)⟩

end Cutting

/-! ### Reliefs -/

namespace Relief

variable {R S : Type} [Scalar R] [Storage R S] (r : Relief R S) (p : Nat × Nat)

/-- The intensity stored for a pixel. What the buffer does not hold is surface. -/
def intensity : S := r.pixels.getD (p.2 * r.columns.toNat + p.1) (Storage.narrow (1 : R))

/-- The center of a pixel. The image lies above and to the right of its origin, the first row on
top. -/
def center : Vec2 R :=
  ⟨(Scalar.ofNat p.1 + 1 / 2) * (r.size.x / Scalar.ofNat r.columns.toNat),
    r.size.y - (Scalar.ofNat p.2 + 1 / 2) * (r.size.y / Scalar.ofNat r.rows.toNat)⟩

/-- The height of a pixel. An intensity beyond the surface or beyond the depth is that of these. -/
def height : R := -(1 - Scalar.clamp 0 1 (Storage.widen (r.intensity p))) * r.size.z

end Relief

namespace Document

variable {R S : Type} [Analytic R] [Storage R S] {d : Document R S} {x : NodeId} {b : Block R S}
  {r : Relief R S}

theorem pixelPlace_eq {p : Nat × Nat} (hcolumn : p.1 < r.columns.toNat)
    (hrow : p.2 < r.rows.toNat) : pixelPlace r p = (r.center p, r.height p) := by
  have hpixel : r.pixel p.1 p.2 = r.intensity p := by
    rw [Relief.pixel, if_pos ⟨hcolumn, hrow⟩, Relief.intensity, Array.getD_eq_getD_getElem?]
  rw [pixelPlace, hpixel]
  rfl

variable (d x r) in
/-- Where a pixel of a relief is cut. -/
def target (p : Nat × Nat) : Vec2 R × R := ((d.placement x).point (r.center p), r.height p)

/-- The places of the pixels are their targets. -/
theorem map_pixelPlace (d : Document R S) (x : NodeId) (r : Relief R S) :
    (Cutting.snake r.columns.toNat r.rows.toNat).map (fun p =>
        ((d.placement x).point (pixelPlace r p).1, (pixelPlace r p).2)) =
      (Cutting.snake r.columns.toNat r.rows.toNat).map (d.target x r) := by
  refine List.map_congr_left fun p hp => ?_
  obtain ⟨hcolumn, hrow⟩ := Cutting.mem_snake_iff.mp hp
  rw [pixelPlace_eq hcolumn hrow]
  rfl

theorem rasters_of_commands {cs : List (Command R)} (h : d.reliefCommands x b r = .ok cs) :
    ∃ tool path, d.findTool? x = some tool ∧
      (0 < r.columns.toNat ∧ 0 < r.rows.toNat) ∧
      Cutting.Covers r.columns.toNat r.rows.toNat path ∧
      (⟨d.material.clearance, tool⟩ : Cutting R).Rasters b.comment (d.target x r) path cs := by
  obtain ⟨tool, htool, hchecked⟩ := exists_of_cutting h
  split at hchecked
  · cases hchecked
  · rename_i hsize
    obtain ⟨hcolumns, hrows, -⟩ : r.columns ≠ 0 ∧ r.rows ≠ 0 ∧ _ := by
      rw [not_or, not_or] at hsize
      exact hsize
    have hwide : 0 < r.columns.toNat :=
      Nat.pos_of_ne_zero fun hzero => hcolumns (UInt32.toNat_inj.mp hzero)
    have hhigh : 0 < r.rows.toNat :=
      Nat.pos_of_ne_zero fun hzero => hrows (UInt32.toNat_inj.mp hzero)
    have hfirst : (0, 0) ∈ Cutting.snake r.columns.toNat r.rows.toNat :=
      Cutting.mem_snake_iff.mpr ⟨hwide, hhigh⟩
    refine ⟨tool, _, htool, ⟨hwide, hhigh⟩, Cutting.covers_snake hwide r.rows.toNat, ?_⟩
    obtain rfl := Except.ok.inj hchecked
    rw [map_pixelPlace]
    exact Cutting.rasters_surface _ _ _ (List.ne_nil_of_mem hfirst)

variable [Numeral R]

/-- **A relief cuts every pixel once, at its own height**: the tool is sent from each pixel to one
beside it, through the whole image. -/
theorem rasters_of_written {f : ProgramFormat} (hb : d.get? x = some b)
    (hpayload : b.payload = .image r) (h : d.written f x ≠ "") :
    ∃ tool path cs, d.findTool? x = some tool ∧
      d.written f x = Statement.program f.dialect (Command.write f.dialect f.decimals cs) ∧
      (0 < r.columns.toNat ∧ 0 < r.rows.toNat) ∧
      Cutting.Covers r.columns.toNat r.rows.toNat path ∧
      (⟨d.material.clearance, tool⟩ : Cutting R).Rasters b.comment (d.target x r) path cs := by
  have hgroup : b.kind.isGroup = false := by rw [Block.kind, hpayload]; rfl
  obtain ⟨cs, hcs, hwritten⟩ := exists_commands_of_written hb hgroup h
  rw [commands, hpayload] at hcs
  obtain ⟨tool, path, htool, hsize, hcovers, hrasters⟩ := rasters_of_commands hcs
  exact ⟨tool, path, cs, htool, hwritten, hsize, hcovers, hrasters⟩

/-- A relief of two rows with a pixel missing in the second. -/
def embossing : Relief Double Single :=
  let black : Single := Storage.narrow (0 : Double)
  let white : Single := Storage.narrow (1 : Double)
  ⟨2, 2, ⟨2, 2, 1 / 2⟩, #[black, white, black]⟩

/-- A tool and a relief behind it. -/
def embossed : Project :=
  let d : Project := ((Document.new "embossed").add { payload := Payload.standard .tool }).2
  (d.add { payload := .image embossing }).2

theorem rasters_of_written_embossed :
    embossed.written (embossed.format none) ⟨1⟩ ≠ "" ∧
    ∃ tool path cs, embossed.findTool? ⟨1⟩ = some tool ∧ Cutting.Covers 2 2 path ∧
      (⟨embossed.material.clearance, tool⟩ : Cutting Double).Rasters ""
        (embossed.target ⟨1⟩ embossing) path cs := by
  have hb : embossed.get? ⟨1⟩ = some { payload := .image embossing } := rfl
  have hlift : (embossed.outcome (embossed.format none) ⟨1⟩).statements[1]? =
      some (.words [Word.g 0, ⟨'Z', "0.10000"⟩]) := by decide +kernel
  have hwritten := program_ne_empty (embossed.format none).dialect (List.mem_of_getElem? hlift)
  obtain ⟨tool, path, cs, htool, -, -, hcovers, hrasters⟩ := rasters_of_written hb rfl hwritten
  exact ⟨hwritten, tool, path, cs, htool, hcovers, hrasters⟩

end Document

end Toolpath
