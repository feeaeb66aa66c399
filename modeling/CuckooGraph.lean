import CuckooGraph.Unweighted
import CuckooGraph.Slot.Rooted
import CuckooGraph.Slot.Growth
import CuckooGraph.Slot.Items
import CuckooGraph.Slot.Insert
import CuckooGraph.Table.Overwrite
import CuckooGraph.Graph.Links
import CuckooGraph.Graph.Place
import CuckooGraph.Graph.Invariant
import CuckooGraph.Graph.Insert
import CuckooGraph.Unweighted.Query
import CuckooGraph.Unweighted.Delete
import CuckooGraph.Unweighted.Contract
import CuckooGraph.Unweighted.SlotDel
import CuckooGraph.Unweighted.LinkContract
import CuckooGraph.Unweighted.MainDel
import CuckooGraph.Unweighted.Removal
import CuckooGraph.Graph.Pop
import CuckooGraph.Unweighted.PostDel
import CuckooGraph.Unweighted.Run
import CuckooGraph.Unweighted.Exactness
import CuckooGraph.Unweighted.Shape
import CuckooGraph.Unweighted.Counts
import CuckooGraph.Slot.Capacity
import CuckooGraph.Graph.Capacity
import CuckooGraph.Unweighted.Capacity
import CuckooGraph.Unweighted.Termination
import CuckooGraph.Weighted
import CuckooGraph.Weighted.Query
import CuckooGraph.Weighted.QueryInsert
import CuckooGraph.Weighted.Insert
import CuckooGraph.Weighted.Accumulation
import CuckooGraph.Graph.Successors
import CuckooGraph.Unweighted.Successors
import CuckooGraph.Linked
import CuckooGraph.Weighted.Successors
import CuckooGraph.WindBell
import CuckooGraph.WindBell.Lists
import CuckooGraph.WindBell.Search
import CuckooGraph.WindBell.Insert
import CuckooGraph.WindBell.Weights
import CuckooGraph.WindBell.Delete
import CuckooGraph.Counting
import CuckooGraph.WindBell.Neighbors
import CuckooGraph.Triangles
import CuckooGraph.WindBell.Enumeration
import CuckooGraph.Mergehash1
import CuckooGraph.Mergehash1.Tables
import CuckooGraph.Mergehash1.Exactness
import CuckooGraph.Table.Pair
import CuckooGraph.Merging
import CuckooGraph.Unweighted.Halving
import CuckooGraph.Reachability
import CuckooGraph.Tarjan
import CuckooGraph.Tarjan.Frame
import CuckooGraph.Tarjan.Search
import CuckooGraph.Graph.Sharing
import CuckooGraph.Unweighted.Isolation
import CuckooGraph.Distances
import CuckooGraph.ShortestPaths
import CuckooGraph.ShortestPaths.Direct
import CuckooGraph.ShortestPaths.Hops
import CuckooGraph.Betweenness
import CuckooGraph.Betweenness.Backward
import CuckooGraph.Clustering
import CuckooGraph.PageRank
import CuckooGraph.InsertOnly
import CuckooGraph.EdgeLines
import CuckooGraph.KickChain
import CuckooGraph.SimdBucket
import CuckooGraph.ExtractSubGraph
import CuckooGraph.Probing
import CuckooGraph.HashTable
import CuckooGraph.Gss
import CuckooGraph.Gss.Rooms
import CuckooGraph.Gss.Nodes
import CuckooGraph.Gss.Buffer
import CuckooGraph.Gss.Edges
import CuckooGraph.Gss.Rows
import CuckooGraph.Gss.NodeQueries
import CuckooGraph.Gss.Names
import CuckooGraph.Gss.Reach
import CuckooGraph.Cliques
import CuckooGraph.GSketch
import CuckooGraph.Gss.Triangles
import CuckooGraph.CountMin
import CuckooGraph.CMSketch
import CuckooGraph.Tcm
import CuckooGraph.Tcm.Estimates
import CuckooGraph.Tcm.Reach
import CuckooGraph.Tcm.Degrees
import CuckooGraph.Unweighted.Refinement
import CuckooGraph.Selection
import CuckooGraph.TopSubgraph
import CuckooGraph.PageRank.Stores
import CuckooGraph.Linked.Family
import CuckooGraph.CrossList
import CuckooGraph.Packed
import CuckooGraph.Bidirectional
import CuckooGraph.Auxo
import CuckooGraph.Auxo.Nodes
import CuckooGraph.Auxo.Walk
import CuckooGraph.Auxo.Rooms
import CuckooGraph.Auxo.Edges
import CuckooGraph.Auxo.Stops
import CuckooGraph.Auxo.NodeQueries
import CuckooGraph.Auxo.Reach
import CuckooGraph.EdgeFiles
import CuckooGraph.Caida
import CuckooGraph.Weighted.Refinement
import CuckooGraph.Weighted.Triangles
import CuckooGraph.WindBell.Refinement
import CuckooGraph.WindBell.Multigraph
