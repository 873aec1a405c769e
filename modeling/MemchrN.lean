import MemchrN.Framework.Exec
import MemchrN.Framework.Simulation
import MemchrN.Framework.ObjectTable
import MemchrN.Framework.Observation
import MemchrN.Framework.Relational
import MemchrN.Framework.Window
import MemchrN.Framework.SetBits
import MemchrN.Framework.Chunks
import MemchrN.Framework.Blocks
import MemchrN.Framework.Matches
import MemchrN.Framework.Counting
import MemchrN.Framework.ByteLanes
import MemchrN.Framework.LaneSums
import MemchrN.Bitset.ByteSet
import MemchrN.Bitset.Refinement
import MemchrN.Bitset.Words
import MemchrN.Bitset.Build
import MemchrN.Bitset.Classify
import MemchrN.Bitset.FromWords
import MemchrN.Bitset.Iter
import MemchrN.Search.Lookups
import MemchrN.Bitset.Debug
import MemchrN.Swar.Kernels
import MemchrN.Vector.Level
import MemchrN.Vector.Kernels
import MemchrN.Search.Staging
import MemchrN.Search.Storage
import MemchrN.Swar.Scan
import MemchrN.Swar.Ends
import MemchrN.Swar.Count
import MemchrN.Vector.Lanes
import MemchrN.Vector.Scan
import MemchrN.Vector.Ends
import MemchrN.Vector.Count
import MemchrN.Search.Plan
import MemchrN.Search.Batches
import MemchrN.Searcher.Cursor
import MemchrN.Searcher.Iter
import MemchrN.Searcher.Select
import MemchrN.Searcher.Ranges
import MemchrN.Searcher.Agreement
import MemchrN.Searcher.Kinds
import MemchrN.Searcher.Drivers
import MemchrN.Searcher.Session
import MemchrN.Searcher.FuzzTargets
import MemchrN.Searcher.Laws
import MemchrN.Searcher.StoredKernels
import MemchrN.Searcher.SetAlgebra
import MemchrN.Searcher.Haystacks
import MemchrN.Searcher.Debug
import MemchrN.Searcher.Masks
