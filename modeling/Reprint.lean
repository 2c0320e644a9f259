import Reprint.Source.Step
import Reprint.Source.Bytes
import Reprint.Patch.Mapping
import Reprint.Settings
import Reprint.Handles
import Reprint.Tree.Locate
import Reprint.Tree.Ownership
import Reprint.Tree.Print
import Reprint.Tree.Dump
import Reprint.Template
import Reprint.WordList.Layout
import Reprint.Proofs.Tree.Unchanged
import Reprint.Proofs.Source.Place
import Reprint.Proofs.Patch.Splice
import Reprint.Proofs.Patch.Requests
import Reprint.Proofs.WordList.Spelling
import Reprint.Proofs.WordList.Entry
import Reprint.Proofs.WordList.Chain
import Reprint.Proofs.WordList.Grammar
import Reprint.Proofs.WordList.Extents
import Reprint.Proofs.Tree.Runs
import Reprint.Proofs.WordList.Normal
import Reprint.Proofs.WordList.Planted
import Reprint.Proofs.Tree.Outward
import Reprint.Proofs.WordList.Search
import Reprint.Proofs.WordList.Loaded
import Reprint.Proofs.WordList.Edited
import Reprint.Proofs.WordList.Standing
import Reprint.Proofs.Tree.Revises
import Reprint.Proofs.WordList.Told
import Reprint.Proofs.WordList.Revised
import Reprint.Proofs.WordList.Rendered
import Reprint.Proofs.WordList.Separated
import Reprint.Proofs.WordList.Shape
import Reprint.Proofs.WordList.Hung
import Reprint.Proofs.WordList.Spelled
import Reprint.Proofs.WordList.AtHome
import Reprint.Proofs.WordList.Reread
import Reprint.Proofs.Tree.Reached
import Reprint.Proofs.WordList.History
import Reprint.Proofs.WordList.Local
import Reprint.Proofs.Tree.Apart
import Reprint.Proofs.Tree.Settled
import Reprint.Proofs.Tree.Orderly
import Reprint.Proofs.Tree.Pinned
import Reprint.Proofs.Tree.TakenOut
import Reprint.Proofs.Patch.Mapped
import Reprint.Proofs.Tree.Mapped
import Reprint.Proofs.Tree.Adopted
import Reprint.Proofs.Tree.Unedited
import Reprint.Proofs.Tree.Reordered
import Reprint.Proofs.Tree.Abreast
import Reprint.Proofs.Tree.Sprouted
import Reprint.Proofs.Tree.Retried
import Reprint.Proofs.Tree.Relisted
import Reprint.Proofs.Tree.LeftOut
import Reprint.Proofs.Tree.Nodeless
import Reprint.Proofs.Tree.Seated
import Reprint.Proofs.Tree.Spliced
import Reprint.Proofs.Tree.Stands
import Reprint.Proofs.Tree.InPlace
import Reprint.Proofs.Tree.Searches
import Reprint.Proofs.WordList.Bare
import Reprint.Proofs.WordList.NormalText
import Reprint.Proofs.WordList.Canonical
import Reprint.Proofs.WordList.Reprinted
import Reprint.Proofs.Tree.Captions
import Reprint.Proofs.Tree.Captioned
import Reprint.Proofs.Tree.Flips
import Reprint.Proofs.Tree.Closest
import Reprint.Proofs.Part.Every
import Reprint.Proofs.Part.UpToDate
import Reprint.Proofs.Tree.Queried
import Reprint.Proofs.Tree.Traced
import Reprint.Proofs.Tree.Gaps
import Reprint.Proofs.Tree.Encased
import Reprint.Proofs.Source.Steps
import Reprint.Proofs.Source.Bytes
import Reprint.Proofs.Patch.AnyOrder
import Reprint.Proofs.Tree.Levels
